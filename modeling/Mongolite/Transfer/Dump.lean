import Mongolite.Bson.Document
import Mongolite.Transfer.Draining

/-! # Dumping a query as BSON

`mongo_dump` writes the documents of a cursor to a connection, in pages of 100
raw vectors. A page that the cursor fails in is not written at all.
-/

namespace Mongolite

variable {docs : List Bson} {failure : Option String} {fuel : ℕ}

end Mongolite
