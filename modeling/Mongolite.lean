import Mongolite.Insert.ContinueOnError
import Mongolite.Insert.Import
import Mongolite.Insert.Ordered
import Mongolite.Insert.WriteErrors
import Mongolite.Find.Iterator
import Mongolite.Find.PageSizes
import Mongolite.Handles.Disconnecting
import Mongolite.Pool.Sharing
import Mongolite.Object.Reconnect
import Mongolite.Object.Record
import Mongolite.Connection.TlsSettings
import Mongolite.Bson.Dates
import Mongolite.Bson.Integers
import Mongolite.Bson.Decimal128RoundTrip
import Mongolite.Bson.ObjectIds
import Mongolite.Bson.Corruption
import Mongolite.Bson.Texts
import Mongolite.Bson.JsonRendering
import Mongolite.Transfer.Renderings
import Mongolite.Transfer.Truncation
import Mongolite.GridFS.DownloadPaths
import Mongolite.GridFS.FailedUpload
import Mongolite.GridFS.Rows
import Mongolite.Requests.OrdinaryNames
import Mongolite.Requests.Selection
