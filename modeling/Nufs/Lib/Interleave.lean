/-
Programs that run side by side over one state.

A program makes requests.  The state answers each of them at one point in time, and the
requests of other programs may be answered between two of its own.  Of the others a
program knows only what they may do to the state (the rely); to the others it owes that
its own requests do no more than it has promised (the guarantee).  If every program keeps
its promise as long as the others keep theirs, then all of them do, however they are
interleaved.
-/
import Nufs.Lib.Guarded

namespace Interleave

open List

/-- A program: it makes requests and goes on with the answers. -/
inductive Prog (Req : Type) (Ans : Req → Type) (α : Type) : Type
  | pure (a : α)
  | call (r : Req) (next : Ans r → Prog Req Ans α)

variable {Req : Type} {Ans : Req → Type} {α β σ κ : Type}

namespace Prog

/-- One program after the other. -/
def bind : Prog Req Ans α → (α → Prog Req Ans β) → Prog Req Ans β
  | pure a, f => f a
  | call r next, f => call r fun answer => (next answer).bind f

instance monad : Monad (Prog Req Ans) where
  pure := pure
  bind := bind

/-- The request a program makes next. -/
def next? : Prog Req Ans α → Option Req
  | pure _ => none
  | call r _ => some r

/-- Every request the program can make has the property, whatever the answers are. -/
def Only (P : Req → Prop) : Prog Req Ans α → Prop
  | pure _ => True
  | call r next => P r ∧ ∀ answer, (next answer).Only P

variable {p : Prog Req Ans α}

theorem Only.bind {P : Req → Prop} {f : α → Prog Req Ans β}
    (hp : p.Only P) (hf : ∀ a, (f a).Only P) : (p.bind f).Only P := by
  induction p with
  | pure a => exact hf a
  | call r next ih => exact ⟨hp.1, fun answer => ih answer (hp.2 answer)⟩

/-- The next request is answered. -/
def step (answer : (r : Req) → σ → Ans r × σ) : Prog Req Ans α → σ → Prog Req Ans α × σ
  | pure a, s => (pure a, s)
  | call r next, s => (next (answer r s).1, (answer r s).2)

end Prog

/-! ### Many programs -/

/-- The state, and the programs that run over it, each with the call it came from. -/
structure Pool (Req : Type) (Ans : Req → Type) (α σ κ : Type) where
  state : σ
  threads : List (κ × Prog Req Ans α)

/-- What happens next: a call comes in, or the next request of a program is answered. -/
inductive Event (κ : Type)
  | start (c : κ)
  | advance (i : Nat)
  deriving DecidableEq, Repr

namespace Pool

variable (answer : (r : Req) → σ → Ans r × σ) (prog : κ → Prog Req Ans α)

/-- One event. -/
def step (p : Pool Req Ans α σ κ) : Event κ → Option (Pool Req Ans α σ κ)
  | .start c => some { p with threads := p.threads ++ [(c, prog c)] }
  | .advance i =>
    p.threads[i]?.map fun t =>
      let t' := t.2.step answer p.state
      ⟨t'.2, p.threads.set i (t.1, t'.1)⟩

/-- The request an event is about may be made in the state. -/
def Allows (allowed : Req → σ → Prop) (p : Pool Req Ans α σ κ) : Event κ → Prop
  | .start _ => True
  | .advance i => ∀ r ∈ p.threads[i]?.bind fun t => t.2.next?, allowed r p.state

instance Allows.decidable (allowed : Req → σ → Prop) [∀ r s, Decidable (allowed r s)]
    (p : Pool Req Ans α σ κ) : ∀ e, Decidable (p.Allows allowed e)
  | .start _ => isTrue trivial
  | .advance i => inferInstanceAs
      (Decidable (∀ r ∈ p.threads[i]?.bind fun t => t.2.next?, allowed r p.state))

theorem allows_true (p : Pool Req Ans α σ κ) (e : Event κ) : p.Allows (fun _ _ => True) e := by
  cases e with
  | start c => trivial
  | advance i => exact fun _ _ => trivial

end Pool

/-! ### Rely and guarantee -/

section Ensures

variable (answer : (r : Req) → σ → Ans r × σ) (allowed : Req → σ → Prop)
  (rely guar : σ → σ → Prop)

/--
Started in the state, the program keeps the guarantee with every allowed request, and has
the postcondition when it ends; the others may change the state at any time, as far as
the rely lets them.
-/
def Ensures : Prog Req Ans α → (α → σ → Prop) → σ → Prop
  | .pure a, post, s => ∀ s', rely s s' → post a s'
  | .call r next, post, s => ∀ s', rely s s' → allowed r s' →
      guar s' (answer r s').2 ∧ Ensures (next (answer r s').1) post (answer r s').2

variable {answer allowed rely guar}

theorem Ensures.mono {post post' : α → σ → Prop} {s : σ}
    (h : Ensures answer allowed rely guar p post s) (himp : ∀ a s, post a s → post' a s) :
    Ensures answer allowed rely guar p post' s := by
  induction p generalizing s with
  | pure a => exact fun s' hs' => himp a s' (h s' hs')
  | call r next ih =>
    intro s' hs' hallowed
    obtain ⟨hguar, hnext⟩ := h s' hs' hallowed
    exact ⟨hguar, ih _ hnext⟩

/-- Requests that keep the guarantee in every state need no rely. -/
theorem Ensures.of_only {P : Req → Prop} {s : σ} (hp : p.Only P)
    (hguar : ∀ r s, P r → allowed r s → guar s (answer r s).2) :
    Ensures answer allowed rely guar p (fun _ _ => True) s := by
  induction p generalizing s with
  | pure a => exact fun s' _ => trivial
  | call r next ih =>
    intro s' _ hallowed
    exact ⟨hguar r s' hp.1 hallowed, ih _ (hp.2 _)⟩

variable (htrans : ∀ s s' s'' : σ, rely s s' → rely s' s'' → rely s s'')
include htrans

/-- What the others do before the first request changes nothing. -/
theorem Ensures.stable {post : α → σ → Prop} {s s' : σ}
    (h : Ensures answer allowed rely guar p post s) (hs : rely s s') :
    Ensures answer allowed rely guar p post s' := by
  cases p with
  | pure a | call r next => exact fun t ht => h t (htrans _ _ _ hs ht)

omit htrans
variable (hrefl : ∀ s : σ, rely s s)
include hrefl

theorem Ensures.bind {f : α → Prog Req Ans β} {post : β → σ → Prop}
    {s : σ} (h : Ensures answer allowed rely guar p
      (fun a s => Ensures answer allowed rely guar (f a) post s) s) :
    Ensures answer allowed rely guar (p >>= f) post s := by
  induction p generalizing s with
  | pure a => exact h s (hrefl s)
  | call r next ih =>
    intro s' hs' hallowed
    obtain ⟨hguar, hnext⟩ := h s' hs' hallowed
    exact ⟨hguar, ih _ hnext⟩

end Ensures

/-! ### Everybody keeps the promises -/

namespace Pool

variable {answer : (r : Req) → σ → Ans r × σ} {prog : κ → Prog Req Ans α}
  {allowed : Req → σ → Prop} {rely : σ → σ → Prop} {guar : κ → σ → σ → Prop}
  {p p' : Pool Req Ans α σ κ} {e : Event κ}

/-- Every program of the pool keeps the guarantee of its call from here on. -/
def Kept (answer : (r : Req) → σ → Ans r × σ) (allowed : Req → σ → Prop) (rely : σ → σ → Prop)
    (guar : κ → σ → σ → Prop) (p : Pool Req Ans α σ κ) : Prop :=
  ∀ t ∈ p.threads, Ensures answer allowed rely (guar t.1) t.2 (fun _ _ => True) p.state

/-- What one event does: to the programs, and to the state. -/
theorem step_cases (h : p.step answer prog e = some p') :
    (∃ c, e = .start c ∧ p'.state = p.state ∧ p'.threads = p.threads ++ [(c, prog c)]) ∨
    ∃ i t, e = .advance i ∧ p.threads[i]? = some t ∧ p'.state = (t.2.step answer p.state).2 ∧
      p'.threads = p.threads.set i (t.1, (t.2.step answer p.state).1) := by
  cases e with
  | start c =>
    left
    refine ⟨c, rfl, ?_⟩
    rw [step, Option.some.injEq] at h
    subst h
    exact ⟨rfl, rfl⟩
  | advance i =>
    right
    rw [step, Option.map_eq_some_iff] at h
    obtain ⟨t, ht, rfl⟩ := h
    exact ⟨i, t, rfl, ht, rfl, rfl⟩

theorem allows_thread {i : Nat} {t : κ × Prog Req Ans α}
    (h : p.Allows allowed (.advance i)) (ht : p.threads[i]? = some t) :
    ∀ r, t.2.next? = some r → allowed r p.state := by
  intro r hr
  refine h r ?_
  rw [ht]
  exact hr

/-- What an event does to the state is within the guarantee of the call it belongs to. -/
def StepKept (guar : κ → σ → σ → Prop) (p p' : Pool Req Ans α σ κ) (e : Event κ) : Prop :=
  p'.state = p.state ∨
    ∃ i t, e = .advance i ∧ p.threads[i]? = some t ∧ guar t.1 p.state p'.state

section Promises

variable (hrefl : ∀ s, rely s s) (htrans : ∀ s s' s'', rely s s' → rely s' s'' → rely s s'')
  (hguar : ∀ c s s', guar c s s' → rely s s')
  (hprog : ∀ c s, Ensures answer allowed rely (guar c) (prog c) (fun _ _ => True) s)
include hrefl

/-- A request that is answered keeps the guarantee, and so does the rest of its program. -/
theorem advance_kept {c : κ} {q : Prog Req Ans α} {s : σ}
    (h : Ensures answer allowed rely (guar c) q (fun _ _ => True) s)
    (hallowed : ∀ r, q.next? = some r → allowed r s) :
    ((q.step answer s).2 = s ∨ guar c s (q.step answer s).2) ∧
      Ensures answer allowed rely (guar c) (q.step answer s).1 (fun _ _ => True)
        (q.step answer s).2 := by
  cases q with
  | pure a => exact ⟨Or.inl rfl, h⟩
  | call r next =>
    obtain ⟨hguar, hnext⟩ := h s (hrefl s) (hallowed r rfl)
    exact ⟨.inr hguar, hnext⟩

include hguar in
theorem StepKept.within (h : StepKept guar p p' e) : rely p.state p'.state := by
  rcases h with hsame | ⟨_, t, _, _, ht⟩
  · rw [hsame]
    exact hrefl _
  · exact hguar t.1 _ _ ht

theorem step_kept (hp : p.Kept answer allowed rely guar) (hallows : p.Allows allowed e)
    (h : p.step answer prog e = some p') : StepKept guar p p' e := by
  rcases step_cases h with ⟨c, rfl, hstate, _⟩ | ⟨i, t, rfl, ht, hstate, _⟩
  · exact .inl hstate
  · have hkept := (advance_kept hrefl (hp t (List.mem_of_getElem? ht)) (allows_thread hallows ht)).1
    rw [← hstate] at hkept
    rcases hkept with hsame | hguar
    · exact .inl hsame
    · exact .inr ⟨i, t, rfl, ht, hguar⟩

include htrans hguar hprog

theorem kept_step (hp : p.Kept answer allowed rely guar) (hallows : p.Allows allowed e)
    (h : p.step answer prog e = some p') : p'.Kept answer allowed rely guar := by
  -- whatever the event did to the state, the other programs had to expect it
  have hrely : rely p.state p'.state := (step_kept hrefl hp hallows h).within hrefl hguar
  rcases step_cases h with ⟨c, rfl, _, hthreads⟩ | ⟨i, t, rfl, ht, hstate, hthreads⟩
  · intro u hu
    rw [hthreads, mem_append, mem_singleton] at hu
    rcases hu with hu | rfl
    · exact .stable htrans (hp u hu) hrely
    · exact hprog c _
  intro u hu
  rw [hthreads] at hu
  rcases mem_or_eq_of_mem_set hu with hu | rfl
  · exact .stable htrans (hp u hu) hrely
  · rw [hstate]
    exact (advance_kept hrefl (hp t (List.mem_of_getElem? ht)) (allows_thread hallows ht)).2

/-- An allowed run keeps every promise, and all it does to the state is within the rely. -/
theorem run_reaches {s : σ} {events : List (Event κ)}
    (hmeets : Guarded.Meets (step answer prog) (Allows allowed) events ⟨s, []⟩)
    (hrun : Guarded.run (step answer prog) events ⟨s, []⟩ = some p) :
    p.Kept answer allowed rely guar ∧ rely s p.state := by
  have hstart : Kept answer allowed rely guar (⟨s, []⟩ : Pool Req Ans α σ κ) ∧ rely s s :=
    ⟨fun t ht => absurd ht (not_mem_nil), hrefl s⟩
  have hstep : ∀ (q : Pool Req Ans α σ κ) (a : Event κ) (q' : Pool Req Ans α σ κ),
      q.Kept answer allowed rely guar ∧ rely s q.state →
      q.Allows allowed a → q.step answer prog a = some q' →
      q'.Kept answer allowed rely guar ∧ rely s q'.state := by
    intro q a q' hq ha hstep
    refine ⟨kept_step hrefl htrans hguar hprog hq.1 ha hstep, htrans _ _ _ hq.2 ?_⟩
    exact (step_kept hrefl hq.1 ha hstep).within hrefl hguar
  exact Guarded.run_invariant hstep hstart hmeets hrun

/--
**Rely and guarantee.**  Calls come in at any time and their programs are interleaved in any
way.  If every program keeps the guarantee of its call under the rely, and every guarantee
is within the rely, then every event of an allowed run is within the guarantee of its call.
-/
theorem run_kept {s : σ} {events : List (Event κ)}
    (hmeets : Guarded.Meets (step answer prog) (Allows allowed) events ⟨s, []⟩)
    (hrun : Guarded.run (step answer prog) events ⟨s, []⟩ = some p)
    (hallows : p.Allows allowed e) (h : p.step answer prog e = some p') : StepKept guar p p' e := by
  obtain ⟨hp, _⟩ := run_reaches hrefl htrans hguar hprog hmeets hrun
  exact step_kept hrefl hp hallows h

end Promises

end Pool

end Interleave
