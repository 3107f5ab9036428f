import Mathlib.Data.Option.Basic
import Mathlib.Tactic.Tauto

/-! # The TLS settings of a client

They can come from the connection string and from `ssl_options`. The driver
takes them from the connection string, and `mongo_client_new` then replaces all
of them by a struct that is filled from `ssl_options` alone.
-/

namespace Mongolite.Tls

structure SslOpt where
  pemFile : Option String
  pemPwd : Option String
  caFile : Option String
  caDir : Option String
  crlFile : Option String
  weakCertValidation : Bool
  allowInvalidHostname : Bool
  deriving DecidableEq, Repr

/-- The zeroed struct, which `mongoc_ssl_opt_get_default` is too. -/
def SslOpt.zero : SslOpt := ⟨none, none, none, none, none, false, false⟩

structure UriOptions where
  tls : Option Bool
  tlsCertificateKeyFile : Option String
  tlsCertificateKeyFilePassword : Option String
  tlsCAFile : Option String
  tlsAllowInvalidCertificates : Option Bool
  tlsAllowInvalidHostnames : Option Bool
  tlsInsecure : Option Bool
  tlsDisableOCSPEndpointCheck : Option Bool
  tlsDisableCertificateRevocationCheck : Option Bool
  deriving DecidableEq, Repr

/-- `mongoc_uri_get_tls`: any of the options turns it on unless it is given itself. -/
def mongocUriGetTls (uri : UriOptions) : Bool :=
  uri.tls.getD (uri.tlsCertificateKeyFile.isSome || uri.tlsCAFile.isSome ||
    uri.tlsAllowInvalidCertificates.isSome || uri.tlsAllowInvalidHostnames.isSome ||
    uri.tlsInsecure.isSome || uri.tlsCertificateKeyFilePassword.isSome ||
    uri.tlsDisableOCSPEndpointCheck.isSome || uri.tlsDisableCertificateRevocationCheck.isSome)

/-- `_mongoc_ssl_opts_from_uri`; there are no options for a directory and for revocations. -/
def mongocSslOptsFromUri (uri : UriOptions) : SslOpt :=
  let insecure := uri.tlsInsecure.getD false
  { SslOpt.zero with
    pemFile := uri.tlsCertificateKeyFile
    pemPwd := uri.tlsCertificateKeyFilePassword
    caFile := uri.tlsCAFile
    weakCertValidation := uri.tlsAllowInvalidCertificates.getD insecure
    allowInvalidHostname := uri.tlsAllowInvalidHostnames.getD insecure }

structure Client where
  useSsl : Bool
  sslOpts : SslOpt
  deriving DecidableEq, Repr

/-- `_mongoc_client_set_ssl_opts_for_single_or_pooled`: the earlier options are freed. -/
def setSslOpts (opts : SslOpt) (client : Client) : Client :=
  { client with useSsl := true, sslOpts := opts }

def mongocClientNewFromUri (uri : UriOptions) : Client :=
  let client : Client := ⟨false, .zero⟩
  if mongocUriGetTls uri then setSslOpts (mongocSslOptsFromUri uri) client else client

/-- A logical of length one; `none` is `NA`. -/
abbrev RLogical := Option Bool

/-- `Rf_asLogical` as a C `bool`: `NA_LOGICAL` is not zero. -/
def asBool : RLogical → Bool
  | none => true
  | some b => b

/-- The list that `ssl_options` returns; `none` is `NULL`. -/
structure SslOptions where
  pemFile : Option String
  pemPwd : Option String
  caFile : Option String
  caDir : Option String
  crlFile : Option String
  allowInvalidHostname : Option RLogical
  weakCertValidation : Option RLogical
  deriving DecidableEq, Repr

def defaultSslOptions : SslOptions :=
  let opt := SslOpt.zero
  ⟨opt.pemFile, none, opt.caFile, opt.caDir, opt.crlFile, some (some opt.allowInvalidHostname),
    some (some opt.weakCertValidation)⟩

/-- The arguments of `ssl_options`; `none` is `NULL`. -/
structure SslArgs where
  cert : Option String
  key : Option String
  ca : Option String
  caDir : Option String
  crlFile : Option String
  allowInvalidHostname : Option RLogical
  weakCertValidation : Option RLogical

/-- What R does with files: write a certificate and its key into a temporary file with a password,
and normalize the path of an existing file. -/
structure Files where
  writeIdentity : String → Option String → Except String (String × String)
  normalizePath : String → Except String String

/-- The temporary file and its password, where a certificate is given. -/
def identityOption (files : Files) (args : SslArgs) :
    Except String (Option String × Option String) :=
  match args.cert with
  | none => .ok (defaultSslOptions.pemFile, defaultSslOptions.pemPwd)
  | some cert => (files.writeIdentity cert args.key).map fun f => (some f.1, some f.2)

def pathOption (files : Files) (default : Option String) :
    Option String → Except String (Option String)
  | none => .ok default
  | some path => (files.normalizePath path).map some

def sslOptions (files : Files) (args : SslArgs) : Except String SslOptions :=
  (identityOption files args).bind fun pem =>
  (pathOption files defaultSslOptions.caFile args.ca).bind fun caFile =>
  (pathOption files defaultSslOptions.caDir args.caDir).bind fun caDir =>
  (pathOption files defaultSslOptions.crlFile args.crlFile).bind fun crlFile =>
  .ok
    { pemFile := pem.1
      pemPwd := pem.2
      caFile := caFile
      caDir := caDir
      crlFile := crlFile
      allowInvalidHostname := args.allowInvalidHostname.or defaultSslOptions.allowInvalidHostname
      weakCertValidation := args.weakCertValidation.or defaultSslOptions.weakCertValidation }

def filledSslOpt (opts : SslOptions) : SslOpt :=
  { pemFile := opts.pemFile
    pemPwd := opts.pemPwd
    caFile := opts.caFile
    caDir := opts.caDir
    crlFile := opts.crlFile
    allowInvalidHostname := opts.allowInvalidHostname.elim false asBool
    weakCertValidation := opts.weakCertValidation.elim false asBool }

/-- `R_mongo_client_new`, from the parsed connection string on. -/
def mongoClientNew (uri : UriOptions) (opts : SslOptions) : Client :=
  let client := mongocClientNewFromUri uri
  if mongocUriGetTls uri then setSslOpts (filledSslOpt opts) client else client

/-! ## Merging -/

def uriFlag (uri : UriOptions) (flag : Option Bool) : Option Bool := flag.or uri.tlsInsecure

/-- Every setting is as given to `ssl_options`, or else as in the connection string, or else the
default. A flag that is `NA` is not given. -/
structure Merged (uri : UriOptions) (args : SslArgs) (opts : SslOptions) (merged : SslOpt) :
    Prop where
  pemFile : merged.pemFile = if args.cert.isSome then opts.pemFile else uri.tlsCertificateKeyFile
  pemPwd : merged.pemPwd =
    if args.cert.isSome then opts.pemPwd else uri.tlsCertificateKeyFilePassword
  caFile : merged.caFile = if args.ca.isSome then opts.caFile else uri.tlsCAFile
  caDir : merged.caDir = if args.caDir.isSome then opts.caDir else none
  crlFile : merged.crlFile = if args.crlFile.isSome then opts.crlFile else none
  allowInvalidHostname : merged.allowInvalidHostname =
    (args.allowInvalidHostname.join.or (uriFlag uri uri.tlsAllowInvalidHostnames)).getD false
  weakCertValidation : merged.weakCertValidation =
    (args.weakCertValidation.join.or (uriFlag uri uri.tlsAllowInvalidCertificates)).getD false

/-- A flag is given, or the connection string sets it as `ssl_options` does: to false where nothing
is given, to true for `NA`. -/
def FlagKept (given : Option RLogical) (fromUri : Option Bool) : Prop :=
  given.join.isSome = true ∨ fromUri.getD false = given.isSome

/-- Every setting of the connection string is given to `ssl_options` too, or is the default. -/
structure NothingLost (uri : UriOptions) (args : SslArgs) : Prop where
  cert : args.cert.isSome = true ∨
    uri.tlsCertificateKeyFile = none ∧ uri.tlsCertificateKeyFilePassword = none
  ca : args.ca.isSome = true ∨ uri.tlsCAFile = none
  allowInvalidHostname : FlagKept args.allowInvalidHostname
    (uriFlag uri uri.tlsAllowInvalidHostnames)
  weakCertValidation : FlagKept args.weakCertValidation
    (uriFlag uri uri.tlsAllowInvalidCertificates)

variable {files : Files} {args : SslArgs} {opts : SslOptions} {uri : UriOptions}

theorem bind_eq_ok {α β : Type} {x : Except String α} {f : α → Except String β} {b : β}
    (h : x.bind f = .ok b) : ∃ a, x = .ok a ∧ f a = .ok b := by
  cases x with
  | error e => cases h
  | ok a => exact ⟨a, rfl, h⟩

structure SslOptionsOf (files : Files) (args : SslArgs) (opts : SslOptions) : Prop where
  cert : identityOption files args = .ok (opts.pemFile, opts.pemPwd)
  ca : pathOption files none args.ca = .ok opts.caFile
  caDir : pathOption files none args.caDir = .ok opts.caDir
  crlFile : pathOption files none args.crlFile = .ok opts.crlFile
  allowInvalidHostname :
    opts.allowInvalidHostname = some (args.allowInvalidHostname.getD (some false))
  weakCertValidation : opts.weakCertValidation = some (args.weakCertValidation.getD (some false))

theorem sslOptions_spec (h : sslOptions files args = .ok opts) : SslOptionsOf files args opts := by
  obtain ⟨pem, hpem, h⟩ := bind_eq_ok h
  obtain ⟨caFile, hca, h⟩ := bind_eq_ok h
  obtain ⟨caDir, hcaDir, h⟩ := bind_eq_ok h
  obtain ⟨crlFile, hcrl, h⟩ := bind_eq_ok h
  cases h
  constructor
  · exact hpem
  · exact hca
  · exact hcaDir
  · exact hcrl
  · cases args.allowInvalidHostname <;> rfl
  · cases args.weakCertValidation <;> rfl

theorem eq_none_of_pathOption {given path : Option String}
    (h : pathOption files none given = .ok path) (hgiven : given.isSome = false) :
    path = none := by
  rw [Option.isSome_eq_false_iff, Option.isNone_iff_eq_none] at hgiven
  subst hgiven
  exact (Except.ok.inj h).symm

theorem eq_none_of_identityOption {pem : Option String × Option String}
    (h : identityOption files args = .ok pem) (hcert : args.cert.isSome = false) :
    pem = (none, none) := by
  rw [Option.isSome_eq_false_iff, Option.isNone_iff_eq_none] at hcert
  rw [identityOption, hcert] at h
  exact (Except.ok.inj h).symm

/-- A setting that is empty unless it is given is merged iff nothing else sets it. -/
theorem merged_setting_iff {value fromUri : Option String} {given : Bool}
    (hvalue : given = false → value = none) :
    (value = if given then value else fromUri) ↔ given = true ∨ fromUri = none := by
  cases given with
  | true => exact iff_of_true (if_pos rfl).symm (.inl rfl)
  | false =>
    rw [if_neg Bool.false_ne_true, hvalue rfl]
    exact ⟨fun h => .inr h.symm, fun h => (h.resolve_left Bool.false_ne_true).symm⟩

theorem merged_flag_iff {given : Option RLogical} {fromUri : Option Bool} :
    asBool (given.getD (some false)) = (given.join.or fromUri).getD false ↔
      FlagKept given fromUri := by
  rw [FlagKept]
  rcases given with _ | _ | b
  · rw [eq_comm]
    simp [asBool]
  · rw [eq_comm]
    simp [asBool]
  · simp [asBool]

/-- The settings are merged iff nothing in the connection string is lost. -/
theorem merged_iff (hopts : sslOptions files args = .ok opts) (htls : mongocUriGetTls uri = true) :
    Merged uri args opts (mongoClientNew uri opts).sslOpts ↔ NothingLost uri args := by
  have hspec := sslOptions_spec hopts
  have hclient : (mongoClientNew uri opts).sslOpts = filledSslOpt opts := by
    simp only [mongoClientNew, htls, if_true, setSslOpts]
  have hpem (hcert : args.cert.isSome = false) : opts.pemFile = none ∧ opts.pemPwd = none :=
    Prod.mk.inj (eq_none_of_identityOption hspec.cert hcert)
  rw [hclient]
  constructor
  · rintro ⟨hfile, hpwd, hca, -, -, hhostname, hweak⟩
    constructor
    · have hfile := (merged_setting_iff fun h => (hpem h).1).mp hfile
      have hpwd := (merged_setting_iff fun h => (hpem h).2).mp hpwd
      tauto
    · exact (merged_setting_iff (eq_none_of_pathOption hspec.ca)).mp hca
    · rw [← merged_flag_iff, ← hhostname, filledSslOpt, hspec.allowInvalidHostname]
      rfl
    · rw [← merged_flag_iff, ← hweak, filledSslOpt, hspec.weakCertValidation]
      rfl
  · rintro ⟨hcert, hca, hhostname, hweak⟩
    constructor
    · exact (merged_setting_iff fun h => (hpem h).1).mpr (hcert.imp_right And.left)
    · exact (merged_setting_iff fun h => (hpem h).2).mpr (hcert.imp_right And.right)
    · exact (merged_setting_iff (eq_none_of_pathOption hspec.ca)).mpr hca
    · exact (merged_setting_iff (eq_none_of_pathOption hspec.caDir)).mpr (.inr rfl)
    · exact (merged_setting_iff (eq_none_of_pathOption hspec.crlFile)).mpr (.inr rfl)
    · rw [← merged_flag_iff.mpr hhostname, filledSslOpt, hspec.allowInvalidHostname]
      rfl
    · rw [← merged_flag_iff.mpr hweak, filledSslOpt, hspec.weakCertValidation]
      rfl

/-- Paths are normal as they are, and an identity is written to one place. -/
def sameFiles : Files := ⟨fun _ _ => .ok ("/tmp/identity.pem", "secret"), .ok⟩

/-- A connection string with an authority of its own for which host names need not match. -/
def privateUri : UriOptions :=
  ⟨some true, none, none, some "/etc/ca.pem", none, some true, none, none, none⟩

def noArgs : SslArgs := ⟨none, none, none, none, none, none, none⟩

/-- Where both settings are given again, the client has the given ones. -/
theorem merged_given_again :
    Merged privateUri { noArgs with ca := some "/home/ca.pem", allowInvalidHostname := some false }
      { defaultSslOptions with caFile := some "/home/ca.pem" }
      (mongoClientNew privateUri
        { defaultSslOptions with caFile := some "/home/ca.pem" }).sslOpts :=
  (@merged_iff sameFiles _ _ _ rfl rfl).mpr
    ⟨.inr ⟨rfl, rfl⟩, .inl rfl, .inl rfl, .inr rfl⟩

/-- Without arguments, `ssl_options` drops the authority and the flag of the connection string. -/
theorem not_merged_defaults :
    mongocUriGetTls privateUri = true ∧ sslOptions sameFiles noArgs = .ok defaultSslOptions ∧
      (mongocClientNewFromUri privateUri).sslOpts.caFile = some "/etc/ca.pem" ∧
      (mongoClientNew privateUri defaultSslOptions).sslOpts.caFile = none ∧
      ¬ Merged privateUri noArgs defaultSslOptions
        (mongoClientNew privateUri defaultSslOptions).sslOpts := by
  refine ⟨rfl, rfl, rfl, rfl, ?_⟩
  intro h
  exact absurd h.caFile (by decide)

end Mongolite.Tls
