/-
What a signature is made over.

The canonical request joins its parts with newlines, and the decoded path may hold newlines
of its own.  The parts behind the path are found from the end and the method from the
start, so what is left between them is the path.
-/
import Nufs.Gateway.Auth
import Nufs.Lib.Separated

namespace Nufs.Gateway

open Separated List

/-- The value a request has for one name of a list of signed headers. -/
def signedValue (ext : Externals) (r : Request) (h : Str) : Str :=
  let h := toLower ext (trimSpace h)
  if h = "host".toList then r.host else r.header h

/-- A request, a list of signed headers and the value of the payload's hash, which is a
header's value or a constant.  The method of a request that `net/http` hands on is a token. -/
structure OneLined (r : Request) (signedHeaders payloadHash : Str) : Prop where
  method : '\n' ∉ r.method
  rawQuery : '\n' ∉ r.rawQuery
  host : '\n' ∉ r.host
  header : ∀ name, '\n' ∉ r.header name
  signedHeaders : '\n' ∉ signedHeaders
  payloadHash : '\n' ∉ payloadHash

variable {ext : Externals} {r : Request} {signedHeaders payloadHash : Str}

/-! ### The parts hold no newline -/

theorem trimLeft_suffix (parts : List Str) (n : Nat) (s : Str) : trimLeft parts n s <:+ s := by
  induction n generalizing s with
  | zero => exact suffix_refl s
  | succ n ih =>
    rw [trimLeft]
    split
    · exact suffix_refl s
    · exact (ih _).trans (drop_suffix _ _)

theorem mem_of_mem_trimSpace {c : Char} {s : Str} (h : c ∈ trimSpace s) : c ∈ s := by
  have hleft := (trimLeft_suffix _ _ _).subset (mem_reverse.mp h)
  exact (trimLeft_suffix _ _ _).subset (mem_reverse.mp hleft)

theorem mem_of_mem_splitFrom {sep : Str} {c : Char} {p : Str} : ∀ {s part : Str} {skip : Nat},
    p ∈ splitFrom sep part skip s → c ∈ p → c ∈ part ∨ c ∈ s := by
  intro s
  induction s with
  | nil =>
    intro part skip hp hc
    rw [splitFrom, mem_singleton] at hp
    rw [hp, mem_reverse] at hc
    exact Or.inl hc
  | cons d s ih =>
    intro part skip hp hc
    cases skip with
    | succ skip =>
      rw [splitFrom] at hp
      exact (ih hp hc).imp_right (mem_cons_of_mem d)
    | zero =>
      rw [splitFrom] at hp
      by_cases hsep : sep.isPrefixOf (d :: s) = true
      · rw [if_pos hsep] at hp
        rcases mem_cons.mp hp with rfl | hp
        · exact Or.inl (mem_reverse.mp hc)
        · exact (ih hp hc).elim (fun h => absurd h not_mem_nil)
            (fun h => Or.inr (mem_cons_of_mem d h))
      · rw [if_neg hsep] at hp
        rcases ih hp hc with h | h
        · rcases mem_cons.mp h with rfl | h
          · exact Or.inr mem_cons_self
          · exact Or.inl h
        · exact Or.inr (mem_cons_of_mem d h)

theorem newline_of_toLower {c : Char} (h : c.toLower = '\n') : c = '\n' := by
  by_cases hup : c.val ≥ 'A'.val ∧ c.val ≤ 'Z'.val
  · have hlow : c.toLower.val = c.val + 32 := congrArg Char.val (dif_pos hup)
    rw [h] at hlow
    have hc : c.val = '\n'.val - 32 := by simp [hlow]
    rw [hc] at hup
    exact absurd hup.2 (by decide)
  · have hsame : c.toLower = c := dif_neg hup
    exact hsame.symm.trans h

theorem newline_of_mem_toLower {s : Str} (h : '\n' ∈ toLower ext s) : '\n' ∈ s := by
  unfold toLower at h
  split at h
  · obtain ⟨c, hc, hlow⟩ := mem_map.mp h
    exact newline_of_toLower hlow ▸ hc
  · exact ext.newline s h

/-- One line of the canonical headers, without the newline that ends it. -/
def headerLine (ext : Externals) (r : Request) (h : Str) : Str :=
  toLower ext (trimSpace h) ++ ':' :: trimSpace (signedValue ext r h)

theorem newline_notMem_headerLine (hr : OneLined r signedHeaders payloadHash) {h : Str}
    (hmem : h ∈ split [';'] signedHeaders) : '\n' ∉ headerLine ext r h := by
  intro hline
  rcases mem_append.mp hline with hname | hvalue
  · have htrim := mem_of_mem_trimSpace (newline_of_mem_toLower hname)
    rcases mem_of_mem_splitFrom hmem htrim with hnil | hlist
    · exact absurd hnil not_mem_nil
    · exact hr.signedHeaders hlist
  · rcases mem_cons.mp hvalue with hcolon | hvalue
    · exact absurd hcolon (by decide)
    · have hvalue := mem_of_mem_trimSpace hvalue
      rw [signedValue] at hvalue
      split at hvalue
      · exact hr.host hvalue
      · exact hr.header _ hvalue

/-! ### Two requests with one canonical request -/

theorem buildCanonicalRequest_eq :
    buildCanonicalRequest r (buildCanonicalHeaders ext r signedHeaders) signedHeaders payloadHash =
      (r.method ++ '\n' :: (r.path ++ '\n' :: r.rawQuery)) ++
        '\n' :: ((split [';'] signedHeaders).mergeSort fun a b => decide (a ≤ b)).flatMap
          (fun h => headerLine ext r h ++ ['\n']) ++ '\n' :: signedHeaders ++ '\n' ::
            payloadHash := by
  simp [buildCanonicalRequest, buildCanonicalHeaders, List.intercalate, headerLine, signedValue]

/--
**What is signed is what is served.**  Two requests with one canonical request agree on all
that the canonical request was made of.
-/
theorem canonical_request_determines {r1 r2 : Request} {signed1 signed2 hash1 hash2 : Str}
    (h1 : OneLined r1 signed1 hash1) (h2 : OneLined r2 signed2 hash2)
    (heq : buildCanonicalRequest r1 (buildCanonicalHeaders ext r1 signed1) signed1 hash1 =
      buildCanonicalRequest r2 (buildCanonicalHeaders ext r2 signed2) signed2 hash2) :
    r1.method = r2.method ∧ r1.path = r2.path ∧ r1.rawQuery = r2.rawQuery ∧
      signed1 = signed2 ∧ hash1 = hash2 ∧ ∀ h ∈ split [';'] signed1,
        trimSpace (signedValue ext r1 h) = trimSpace (signedValue ext r2 h) := by
  rw [buildCanonicalRequest_eq, buildCanonicalRequest_eq] at heq
  obtain ⟨heq, hhash⟩ := last_inj h1.payloadHash h2.payloadHash heq
  obtain ⟨heq, hsigned⟩ := last_inj h1.signedHeaders h2.signedHeaders heq
  subst hsigned
  -- The lists of names are the same, so there are as many lines on both sides.
  obtain ⟨heq, hlines⟩ := lines_inj (fun h hmem =>
    have hmem := mem_mergeSort.mp hmem
    ⟨newline_notMem_headerLine h1 hmem, newline_notMem_headerLine h2 hmem⟩) heq
  obtain ⟨hmethod, heq⟩ := first_inj h1.method h2.method heq
  obtain ⟨hpath, hquery⟩ := last_inj h1.rawQuery h2.rawQuery heq
  refine ⟨hmethod, hpath, hquery, rfl, hhash, ?_⟩
  intro h hmem
  have hline : headerLine ext r1 h = headerLine ext r2 h := hlines h (mem_mergeSort.mpr hmem)
  exact (List.cons.inj (append_cancel_left hline)).2

/-- A request for a path with a newline. -/
def ranged (host : Str) (range : Char) : Request :=
  ⟨['G', 'E', 'T'], host, ['/', '\n', '/'], [], fun _ => [range], fun _ => []⟩

/-- One host has a no-break space behind it, and a header that is not signed differs. -/
theorem canonical_request_determines_ranged :
    let canonical := fun r : Request =>
      buildCanonicalRequest r (buildCanonicalHeaders plain r "host".toList) "host".toList ['-']
    let r1 := ranged ['h'] '1'
    let r2 := ranged ['h', '\xc2', '\xa0'] '2'
    canonical r1 = canonical r2 ∧ r1.path = r2.path ∧ trimSpace r1.host = trimSpace r2.host := by
  intro canonical r1 r2
  have hone : OneLined r1 "host".toList ['-'] ∧ OneLined r2 "host".toList ['-'] := by
    refine ⟨⟨?_, ?_, ?_, ?_, ?_, ?_⟩, ⟨?_, ?_, ?_, ?_, ?_, ?_⟩⟩ <;> simp [r1, r2, ranged]
  have heq : canonical r1 = canonical r2 := by
    show buildCanonicalRequest _ _ _ _ = buildCanonicalRequest _ _ _ _
    rw [buildCanonicalRequest_eq, buildCanonicalRequest_eq,
      show split [';'] "host".toList = ["host".toList] by decide, mergeSort_singleton]
    decide
  obtain ⟨-, hpath, -, -, -, hvalues⟩ := canonical_request_determines hone.1 hone.2 heq
  exact ⟨heq, hpath, hvalues "host".toList (by decide)⟩

end Nufs.Gateway
