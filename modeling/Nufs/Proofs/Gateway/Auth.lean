/-
Which requests the gateway authenticates soundly.

Three paths lead to an accepted request.  The header path compares signatures, and slices
a date that may be too short.  The path of presigned queries looks the access key up and
compares nothing.  The anonymous path asks whether the table is empty and not whether
authentication is on.
-/
import Nufs.Gateway.Auth

namespace Nufs.Gateway

section

variable (ext : Externals) (presigned : Request → Str → Str) (cs : CredentialStore) (r : Request)

/-- The access key and the signature a request gives, and the signature it should have under
a secret: from its header or, without one, from its query. -/
def Signed (key secretKey : Str) : Prop :=
  let authHeader := r.header Field.authorization
  if authHeader = [] then r.query Field.signature = presigned r secretKey
  else (parseAuthHeader authHeader).accessKey = key ∧
    (parseAuthHeader authHeader).signature =
      expectedSig ext r (parseAuthHeader authHeader) secretKey

/-- What is asked of a verification: the key of an accepted request is in the table and the
request is signed under its secret, and no request makes the gateway panic. -/
structure SoundlyVerified : Prop where
  accepted : ∀ key, verifySignatureV4 ext cs r = .accepted key →
    ∃ cred, cs.credentials.lookup key = some cred ∧ Signed ext presigned r key cred.secretKey
  noPanic : verifySignatureV4 ext cs r ≠ .crashed

/-- A request that all checks of the header path but the last are passed by. -/
def KnownKey (parts : AuthParts) (cred : Credential) : Prop :=
  parts.accessKey ≠ [] ∧ parts.signature ≠ [] ∧
    cs.credentials.lookup parts.accessKey = some cred

/-- The condition on a store and a request, one part for each path. -/
structure Verifiable : Prop where
  dated : r.header Field.authorization ≠ [] →
    (after? scheme (r.header Field.authorization)).isSome →
    ∀ cred, KnownKey cs (parseAuthHeader (r.header Field.authorization)) cred →
      8 ≤ (dateStr r).length
  presigned : r.header Field.authorization = [] → r.query Field.algorithm ≠ [] →
    ∀ key second rest cred, split ['/'] (r.query Field.credential) = key :: second :: rest →
      r.query Field.credential ≠ [] → cs.credentials.lookup key = some cred →
      r.query Field.signature = presigned r cred.secretKey
  unsigned : r.header Field.authorization = [] → r.query Field.algorithm = [] →
    cs.hasCredentials = true

end

variable {ext : Externals} {presigned : Request → Str → Str} {cs : CredentialStore} {r : Request}

theorem verifyPresignedURL_accepted {key : Str} : verifyPresignedURL cs r = .accepted key ↔
      r.query Field.credential ≠ [] ∧ (∃ second rest,
        split ['/'] (r.query Field.credential) = key :: second :: rest) ∧
      (cs.credentials.lookup key).isSome := by
  rw [verifyPresignedURL]
  by_cases hcred : r.query Field.credential = []
  · simp [hcred]
  rcases split ['/'] (r.query Field.credential) with _ | ⟨k, _ | ⟨second, rest⟩⟩
  · simp [hcred]
  · simp [hcred]
  by_cases hknown : (cs.credentials.lookup k).isSome
  · simp only [hcred, hknown, if_false, if_true, Outcome.accepted.injEq]
    constructor
    · rintro rfl
      exact ⟨hcred, ⟨second, rest, rfl⟩, hknown⟩
    · rintro ⟨-, ⟨_, _, heq⟩, -⟩
      exact (List.cons.inj heq).1
  simp only [hcred, hknown, if_false]
  constructor
  · intro h
    cases h
  · rintro ⟨-, ⟨_, _, heq⟩, hsome⟩
    exact absurd ((List.cons.inj heq).1 ▸ hsome) hknown

theorem verifyPresignedURL_ne_crashed : verifyPresignedURL cs r ≠ .crashed := by
  rw [verifyPresignedURL]
  split_ifs
  · simp
  · split <;> try split_ifs
    all_goals simp

/-- What the header path does with a key that is known. -/
theorem verifyParts_known {parts : AuthParts} {cred : Credential} (h : KnownKey cs parts cred) :
    verifyParts ext cs r parts = if (dateStr r).length < 8 then .crashed
      else if parts.signature = expectedSig ext r parts cred.secretKey then
        .accepted parts.accessKey else .rejected .signatureMismatch := by
  simp [verifyParts, h.1, h.2.1, h.2.2]

/-- Without a known key the header path rejects. -/
theorem verifyParts_unknown {parts : AuthParts} (h : ∀ cred, ¬ KnownKey cs parts cred) :
    ∃ e, verifyParts ext cs r parts = .rejected e := by
  rw [verifyParts]
  by_cases hempty : parts.accessKey = [] ∨ parts.signature = []
  · exact ⟨_, if_pos hempty⟩
  · rw [if_neg hempty]
    push Not at hempty
    cases hcred : cs.credentials.lookup parts.accessKey with
    | none => exact ⟨_, rfl⟩
    | some cred => exact absurd ⟨hempty.1, hempty.2, hcred⟩ (h cred)

/-- The header path verifies soundly exactly if the date of a request with a known key can
be sliced. -/
theorem header_sound_iff (hheader : r.header Field.authorization ≠ []) :
    SoundlyVerified ext presigned cs r ↔ ((after? scheme (r.header Field.authorization)).isSome →
        ∀ cred, KnownKey cs (parseAuthHeader (r.header Field.authorization)) cred →
          8 ≤ (dateStr r).length) := by
  set parts := parseAuthHeader (r.header Field.authorization) with hparts
  by_cases hscheme : (after? scheme (r.header Field.authorization)).isSome
  · have hverify : verifySignatureV4 ext cs r = verifyParts ext cs r parts := by
      simp only [verifySignatureV4, if_neg hheader, Option.isNone_iff_eq_none,
        if_neg (Option.isSome_iff_ne_none.mp hscheme), hparts]
    by_cases hknown : ∃ cred, KnownKey cs parts cred
    · obtain ⟨cred, hknown⟩ := hknown
      have hsame : ∀ cred', KnownKey cs parts cred' → cred' = cred := fun cred' h =>
        Option.some.inj (h.2.2.symm.trans hknown.2.2)
      constructor
      · intro h _ cred' _
        by_contra hlen
        refine h.noPanic ?_
        rw [hverify, verifyParts_known hknown, if_pos (Nat.lt_of_not_le hlen)]
      intro h
      have hdate := h hscheme cred hknown
      refine ⟨fun key hkey => ?_, ?_⟩
      · rw [hverify, verifyParts_known hknown, if_neg (Nat.not_lt.mpr hdate)] at hkey
        split_ifs at hkey with hsig
        obtain rfl := Outcome.accepted.inj hkey
        refine ⟨cred, hknown.2.2, ?_⟩
        simp only [Signed, if_neg hheader]
        exact ⟨hparts.symm ▸ rfl, hparts ▸ hsig⟩
      · rw [hverify, verifyParts_known hknown, if_neg (Nat.not_lt.mpr hdate)]
        split_ifs <;> simp
    · push Not at hknown
      obtain ⟨e, he⟩ : ∃ e, verifyParts ext cs r parts = .rejected e :=
        verifyParts_unknown hknown
      refine ⟨fun _ _ cred hcred => absurd hcred (hknown cred), fun _ => ⟨fun key hkey => ?_, ?_⟩⟩
      · rw [hverify, he] at hkey
        cases hkey
      · rw [hverify, he]
        simp
  · have hverify : verifySignatureV4 ext cs r = .rejected .unsupportedScheme := by
      simp only [verifySignatureV4, if_neg hheader, Option.isNone_iff_eq_none]
      rw [if_pos (by simpa using hscheme)]
    refine ⟨fun _ h => absurd h hscheme, fun _ => ⟨fun key hkey => ?_, ?_⟩⟩
    · rw [hverify] at hkey
      cases hkey
    · rw [hverify]
      simp

/-- A presigned request is verified soundly exactly if its signature is right or its key is
not in the table. -/
theorem presigned_sound_iff (hheader : r.header Field.authorization = [])
    (halg : r.query Field.algorithm ≠ []) : SoundlyVerified ext presigned cs r ↔
      ∀ key second rest cred, split ['/'] (r.query Field.credential) = key :: second :: rest →
        r.query Field.credential ≠ [] → cs.credentials.lookup key = some cred →
        r.query Field.signature = presigned r cred.secretKey := by
  have hverify : verifySignatureV4 ext cs r = verifyPresignedURL cs r := by
    simp only [verifySignatureV4, if_pos hheader, if_pos halg]
  have hsigned : ∀ key secretKey, Signed ext presigned r key secretKey ↔
      r.query Field.signature = presigned r secretKey := by
    intro key secretKey
    simp only [Signed, if_pos hheader]
  constructor
  · intro h key second rest cred hsplit hgiven hcred
    have haccepted : verifySignatureV4 ext cs r = .accepted key := by
      rw [hverify, verifyPresignedURL_accepted]
      exact ⟨hgiven, ⟨second, rest, hsplit⟩, by simp [hcred]⟩
    obtain ⟨cred', hcred', hsig⟩ := h.accepted key haccepted
    obtain rfl := Option.some.inj (hcred.symm.trans hcred')
    exact (hsigned key _).mp hsig
  · intro h
    refine ⟨fun key hkey => ?_, hverify ▸ verifyPresignedURL_ne_crashed⟩
    rw [hverify, verifyPresignedURL_accepted] at hkey
    obtain ⟨hgiven, ⟨second, rest, hsplit⟩, hknown⟩ := hkey
    obtain ⟨cred, hcred⟩ := Option.isSome_iff_exists.mp hknown
    exact ⟨cred, hcred, (hsigned key _).mpr (h key second rest cred hsplit hgiven hcred)⟩

/-- A request that is not signed is verified soundly exactly if the table is not empty. -/
theorem unsigned_sound_iff (hheader : r.header Field.authorization = [])
    (halg : r.query Field.algorithm = []) :
    SoundlyVerified ext presigned cs r ↔ cs.hasCredentials = true := by
  have hverify : verifySignatureV4 ext cs r = if cs.hasCredentials then
      .rejected .missingAuthorization else .accepted "anonymous".toList := by
    simp only [verifySignatureV4, if_pos hheader, halg, ne_eq, not_true_eq_false, if_false]
  constructor
  · intro h
    by_contra hempty
    rw [if_neg hempty] at hverify
    obtain ⟨cred, hcred, -⟩ := h.accepted _ hverify
    have hmem := AList.lookup_isSome.mp (by rw [hcred]; rfl)
    have hnil : cs.credentials.entries = [] := by
      simpa [CredentialStore.hasCredentials] using hempty
    simp [AList.mem_keys, AList.keys, hnil] at hmem
  · intro hsome
    rw [if_pos hsome] at hverify
    refine ⟨fun key hkey => ?_, by rw [hverify]; simp⟩
    rw [hverify] at hkey
    cases hkey

/--
**When authentication is sound.**  For every store, whatever calls it has seen, and every
request: with authentication on, the request is verified soundly exactly if a header with a
known key comes with a date that can be sliced, a presigned query with a known key has the
right signature, and a request that is not signed meets a table that is not empty.
-/
theorem authentication_sound_iff (ext : Externals) (presigned : Request → Str → Str)
    (start : CredentialStore) (calls : List StoreCall) (r : Request) :
    ((calls.foldl CredentialStore.call start).authEnabled = true →
      SoundlyVerified ext presigned (calls.foldl CredentialStore.call start) r) ↔
    ((calls.foldl CredentialStore.call start).authEnabled = true →
      Verifiable presigned (calls.foldl CredentialStore.call start) r) := by
  refine imp_congr_right fun _ => ?_
  by_cases hheader : r.header Field.authorization = []
  · by_cases halg : r.query Field.algorithm = []
    · rw [unsigned_sound_iff hheader halg]
      exact ⟨fun h => ⟨fun hne => absurd hheader hne, fun _ hne => absurd halg hne,
        fun _ _ => h⟩, fun h => h.unsigned hheader halg⟩
    · rw [presigned_sound_iff hheader halg]
      exact ⟨fun h => ⟨fun hne => absurd hheader hne, fun _ _ => h,
        fun _ hnil => absurd hnil halg⟩, fun h => h.presigned hheader halg⟩
  · rw [header_sound_iff hheader]
    exact ⟨fun h => ⟨fun _ => h, fun hnil => absurd hnil hheader,
      fun hnil => absurd hnil hheader⟩, fun h => h.dated hheader⟩

/-- A request with these headers and these values in its query. -/
def requestWith (headers query : List (Str × Str)) : Request :=
  { method := "GET".toList, host := "s3".toList, path := ['/'], rawQuery := []
    header := fun name => ((headers.find? fun h => h.1 = name).map Prod.snd).getD []
    query := fun name => ((query.find? fun q => q.1 = name).map Prod.snd).getD [] }

/-- A store with one credential, and then one that is emptied with authentication kept on. -/
def oneKey : List StoreCall := [.replaceAll [⟨['k'], ['s'], []⟩]]
def revokedKey : List StoreCall := oneKey ++ [.setAuthMode true, .replaceAll []]

/-- With authentication on, a request without any signature is accepted from the emptied
store, one with the name of a key in its query is accepted unsigned, and one without a date
makes the gateway panic. -/
theorem unsigned_requests_accepted :
    let store := fun calls => List.foldl CredentialStore.call ⟨∅, false⟩ calls
    let verify := fun calls r => verifySignatureV4 plain (store calls) r
    ((store revokedKey).authEnabled = true ∧ (store oneKey).authEnabled = true) ∧
    verify revokedKey (requestWith [] []) = .accepted "anonymous".toList ∧
    verify oneKey (requestWith [] [(Field.algorithm, ['x']), (Field.credential, "k/d".toList)]) =
      .accepted ['k'] ∧
    verify oneKey (requestWith [(Field.authorization,
      "AWS4-HMAC-SHA256 Credential=k/d/r/s, SignedHeaders=host, Signature=0".toList)] []) =
      .crashed := by
  decide +kernel

end Nufs.Gateway
