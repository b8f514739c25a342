/-
Authentication at the S3 gateway.

The gateway keeps a table of credentials that the metadata service replaces as a whole,
and a switch that keeps authentication on when the table is empty.  A request is signed in
its `Authorization` header or in its query.  A string is the list of its bytes; the hashes
and the lower case of letters beyond ASCII are parameters.
-/
import Mathlib.Data.Char
import Mathlib.Data.List.AList
import Mathlib.Data.List.Lex

namespace Nufs.Gateway

/-- A Go string, one character for each byte. -/
abbrev Str := List Char

/-! ### Strings -/

/-- `strings.Split`, for a separator that is not empty. -/
def splitFrom (sep : Str) : Str → Nat → Str → List Str
  | part, _, [] => [part.reverse]
  | part, skip + 1, _ :: s => splitFrom sep part skip s
  | part, 0, c :: s =>
    if sep.isPrefixOf (c :: s) then part.reverse :: splitFrom sep [] (sep.length - 1) s
    else splitFrom sep (c :: part) 0 s

def split (sep s : Str) : List Str := splitFrom sep [] 0 s

/-- The UTF-8 encodings of the runes that are `unicode.IsSpace`. -/
def spaces : List Str :=
  ['\t', '\n', '\x0b', '\x0c', '\r', ' '].map (fun c => [c]) ++
    [['\xc2', '\x85'], ['\xc2', '\xa0'], ['\xe1', '\x9a', '\x80']] ++
    ['\x80', '\x81', '\x82', '\x83', '\x84', '\x85', '\x86', '\x87', '\x88', '\x89', '\x8a',
      '\xa8', '\xa9', '\xaf'].map (fun c => ['\xe2', '\x80', c]) ++
    [['\xe2', '\x81', '\x9f'], ['\xe3', '\x80', '\x80']]

/-- Drops the parts a string starts with, at most so many of them. -/
def trimLeft (parts : List Str) : Nat → Str → Str
  | 0, s => s
  | n + 1, s =>
    match parts.find? fun part => part.isPrefixOf s with
    | none => s
    | some part => trimLeft parts n (s.drop part.length)

/-- `strings.TrimSpace`: a rune of white space ends a string exactly if its encoding does. -/
def trimSpace (s : Str) : Str :=
  let s := trimLeft spaces s.length s
  (trimLeft (spaces.map List.reverse) s.length s.reverse).reverse

/-- What follows a text that a string starts with. -/
def after? (start s : Str) : Option Str :=
  if start.isPrefixOf s then some (s.drop start.length) else none

/-! ### Credentials -/

/-- `gatewayCredential`. -/
structure Credential where
  secretKey : Str
  principal : Str
  deriving DecidableEq

/-- `metadata.GatewayCredential`. -/
structure GatewayCredential where
  accessKey : Str
  secretKey : Str
  principal : Str

/-- `CredentialStore`. -/
structure CredentialStore where
  credentials : AList fun _ : Str => Credential
  authMode : Bool

namespace CredentialStore

variable (cs : CredentialStore)

/-- `ReplaceAll`. -/
def replaceAll (creds : List GatewayCredential) : CredentialStore :=
  let table := creds.foldl (fun table c =>
    if c.accessKey = [] ∨ c.secretKey = [] then table
    else table.insert c.accessKey
      ⟨c.secretKey, if c.principal = [] then c.accessKey else c.principal⟩) ∅
  { cs with credentials := table }

/-- `HasCredentials`. -/
def hasCredentials : Bool := !cs.credentials.entries.isEmpty

/-- `AuthEnabled`. -/
def authEnabled : Bool := cs.authMode || cs.hasCredentials

end CredentialStore

/-- A call that changes the credentials. -/
inductive StoreCall
  | replaceAll (creds : List GatewayCredential)
  | setAuthMode (enabled : Bool)

/-- The store after a call. -/
def CredentialStore.call (cs : CredentialStore) : StoreCall → CredentialStore
  | .replaceAll creds => cs.replaceAll creds
  | .setAuthMode enabled => { cs with authMode := enabled }

/-! ### Requests -/

/-! The names of headers and of values of a query. -/

namespace Field

@[irreducible] def authorization : Str := "Authorization".toList
@[irreducible] def amzDate : Str := "X-Amz-Date".toList
@[irreducible] def date : Str := "Date".toList
@[irreducible] def contentSha256 : Str := "X-Amz-Content-Sha256".toList
@[irreducible] def algorithm : Str := "X-Amz-Algorithm".toList
@[irreducible] def credential : Str := "X-Amz-Credential".toList
@[irreducible] def signature : Str := "X-Amz-Signature".toList

end Field

/-- What is read of a request; `header` and `query` are the `Get` of its headers and of the
values of its query, empty for a name that is not there. -/
structure Request where
  method : Str
  host : Str
  path : Str
  rawQuery : Str
  header : Str → Str
  query : Str → Str

/-- What the standard library computes: `hmacSHA256`, `sha256` and hexadecimal digits, and
`strings.ToLower` of a string that is not all ASCII. -/
structure Externals where
  hmac : Str → Str → Str
  hex : Str → Str
  sha256 : Str → Str
  mapLower : Str → Str
  /-- No other rune has a newline as its lower case, and the encoding of none contains one. -/
  newline : ∀ s, '\n' ∈ mapLower s → '\n' ∈ s

/-- Nothing is hashed or mapped. -/
def plain : Externals := ⟨fun _ d => d, id, id, id, fun _ h => h⟩

/-- `strings.ToLower`. -/
def toLower (ext : Externals) (s : Str) : Str :=
  if s.all (fun c => c.toNat < 128) then s.map Char.toLower else ext.mapLower s

/-- The parts of an `Authorization` header. -/
structure AuthParts where
  accessKey : Str := []
  region : Str := []
  service : Str := []
  signedHeaders : Str := []
  signature : Str := []

@[irreducible] def scheme : Str := "AWS4-HMAC-SHA256 ".toList

/-- One part of an `Authorization` header. -/
def AuthParts.add (parts : AuthParts) (part : Str) : AuthParts :=
  match after? "Credential=".toList (trimSpace part) with
  | some cred =>
    match split ['/'] cred with
    | accessKey :: _ :: region :: service :: _ => { parts with accessKey, region, service }
    | _ => parts
  | none =>
    match after? "SignedHeaders=".toList (trimSpace part) with
    | some signedHeaders => { parts with signedHeaders }
    | none =>
      match after? "Signature=".toList (trimSpace part) with
      | some signature => { parts with signature }
      | none => parts

/-- `parseAuthHeader`. -/
def parseAuthHeader (header : Str) : AuthParts :=
  (split ", ".toList ((after? scheme header).getD header)).foldl AuthParts.add {}

/-- `buildCanonicalHeaders`. -/
def buildCanonicalHeaders (ext : Externals) (r : Request) (signedHeaders : Str) : Str :=
  let headers := (split [';'] signedHeaders).mergeSort fun a b => decide (a ≤ b)
  headers.flatMap fun h =>
    let h := toLower ext (trimSpace h)
    let val := if h = "host".toList then r.host else r.header h
    h ++ ':' :: trimSpace val ++ ['\n']

/-- `buildCanonicalRequest`. -/
def buildCanonicalRequest (r : Request) (canonicalHeaders signedHeaders payloadHash : Str) : Str :=
  ['\n'].intercalate
    [r.method, r.path, r.rawQuery, canonicalHeaders, signedHeaders, payloadHash]

/-- The errors of a verification. -/
inductive AuthErr
  | missingAuthorization
  | unsupportedScheme
  | invalidAuthorization
  | unknownAccessKey (key : Str)
  | signatureMismatch
  | missingCredential
  | invalidCredential
  deriving DecidableEq

/-- How a verification ends. -/
inductive Outcome
  | accepted (accessKey : Str)
  | rejected (e : AuthErr)
  /-- A run-time panic: a slice beyond the end of a string. -/
  | crashed
  deriving DecidableEq

section

variable (ext : Externals) (cs : CredentialStore) (r : Request)

/-- `deriveSigningKey`. -/
def deriveSigningKey (secretKey dateStamp region service : Str) : Str :=
  let kDate := ext.hmac ("AWS4".toList ++ secretKey) dateStamp
  let kRegion := ext.hmac kDate region
  let kService := ext.hmac kRegion service
  ext.hmac kService "aws4_request".toList

/-- The date of a request. -/
def dateStr : Str :=
  if r.header Field.amzDate = [] then r.header Field.date
  else r.header Field.amzDate

/-- The signature of a request under a secret, with the scope and the headers that its
`Authorization` header gives. -/
def expectedSig (parts : AuthParts) (secretKey : Str) : Str :=
  let date := dateStr r
  let dateStamp := date.take 8
  let given := r.header Field.contentSha256
  let payloadHash := if given = [] then "UNSIGNED-PAYLOAD".toList else given
  let canonicalRequest := buildCanonicalRequest r (buildCanonicalHeaders ext r parts.signedHeaders)
    parts.signedHeaders payloadHash
  let scope := ['/'].intercalate [dateStamp, parts.region, parts.service, "aws4_request".toList]
  let stringToSign := ['\n'].intercalate
    ["AWS4-HMAC-SHA256".toList, date, scope, ext.hex (ext.sha256 canonicalRequest)]
  let signingKey := deriveSigningKey ext secretKey dateStamp parts.region parts.service
  ext.hex (ext.hmac signingKey stringToSign)

/-- `verifyPresignedURL`. -/
def verifyPresignedURL : Outcome :=
  let credential := r.query Field.credential
  if credential = [] then .rejected .missingCredential
  else
    match split ['/'] credential with
    | accessKey :: _ :: _ =>
      if (cs.credentials.lookup accessKey).isSome then .accepted accessKey
      else .rejected (.unknownAccessKey accessKey)
    | _ => .rejected .invalidCredential

/-- The header path of `VerifySignatureV4`, from the parsed header on. -/
def verifyParts (parts : AuthParts) : Outcome :=
  if parts.accessKey = [] ∨ parts.signature = [] then .rejected .invalidAuthorization
  else
    match cs.credentials.lookup parts.accessKey with
    | none => .rejected (.unknownAccessKey parts.accessKey)
    | some cred =>
      if (dateStr r).length < 8 then .crashed
      else if parts.signature = expectedSig ext r parts cred.secretKey then
        .accepted parts.accessKey
      else .rejected .signatureMismatch

/-- `VerifySignatureV4`. -/
def verifySignatureV4 : Outcome :=
  let authHeader := r.header Field.authorization
  if authHeader = [] then
    if r.query Field.algorithm ≠ [] then verifyPresignedURL cs r
    else if cs.hasCredentials then .rejected .missingAuthorization
    else .accepted "anonymous".toList
  else if (after? scheme authHeader).isNone then .rejected .unsupportedScheme
  else verifyParts ext cs r (parseAuthHeader authHeader)

end

end Nufs.Gateway
