/-
Sums over the edges below a node of a forest.

A finite set of edges, each from a node to a node.  Where no node is below itself, and a
node with edges out of it has at most one edge into it, the edges of a node cut what is
below it into pieces that do not meet: a sum over all of it can be taken edge by edge.
-/
import Mathlib.Algebra.BigOperators.Group.Finset.Basic

namespace EdgeSum

open Relation Finset

variable {ι α M : Type}

/-- An edge leads from the one node to the other. -/
def Next (edges : Finset ι) (src dst : ι → α) (a b : α) : Prop :=
  ∃ e ∈ edges, src e = a ∧ dst e = b

/-- No node is below itself, and a node with edges has at most one edge into it. -/
structure Forest (edges : Finset ι) (src dst : ι → α) : Prop where
  acyclic : ∀ a, ¬ TransGen (Next edges src dst) a a
  single : ∀ e ∈ edges, ∀ e' ∈ edges, ∀ f ∈ edges, dst e = src f → dst e' = src f → e = e'

open Classical in
/-- The edges that start at a node or below it. -/
noncomputable def below (edges : Finset ι) (src dst : ι → α) (a : α) : Finset ι :=
  edges.filter fun e => ReflTransGen (Next edges src dst) a (src e)

variable {edges : Finset ι} {src dst : ι → α}

variable {a : α} {e : ι}

theorem mem_below :
    e ∈ below edges src dst a ↔ e ∈ edges ∧ ReflTransGen (Next edges src dst) a (src e) := by
  classical
  exact mem_filter

theorem next_of_mem (he : e ∈ edges) : Next edges src dst (src e) (dst e) := ⟨e, he, rfl, rfl⟩

/-- A node with an edge below it has an edge of its own. -/
theorem exists_edge {f : ι} (hf : f ∈ below edges src dst a) : ∃ g ∈ edges, src g = a := by
  obtain ⟨hmem, hpath⟩ := mem_below.mp hf
  rcases ReflTransGen.cases_head hpath with heq | ⟨b, ⟨g, hg, hsrc, -⟩, -⟩
  · exact ⟨f, hmem, heq.symm⟩
  · exact ⟨g, hg, hsrc⟩

theorem below_eq_empty (h : ∀ e ∈ edges, src e ≠ a) : below edges src dst a = ∅ := by
  refine eq_empty_of_forall_notMem fun f hf => ?_
  obtain ⟨g, hg, hsrc⟩ := exists_edge hf
  exact h g hg hsrc

namespace Forest

/-- Of two nodes above an edge one is above the other. -/
theorem comparable (h : Forest edges src dst) {a b x : α}
    (hax : ReflTransGen (Next edges src dst) a x) (hbx : ReflTransGen (Next edges src dst) b x)
    (hx : ∃ f ∈ edges, src f = x) :
    ReflTransGen (Next edges src dst) a b ∨ ReflTransGen (Next edges src dst) b a := by
  induction hax with
  | refl => exact .inr hbx
  | @tail y x hay hyx ih =>
    obtain ⟨e, he, rfl, rfl⟩ := hyx
    rcases ReflTransGen.cases_tail hbx with heq | ⟨y', hby', e', he', rfl, hdst⟩
    · exact .inl (heq ▸ hay.tail (next_of_mem he))
    · obtain ⟨f, hf, hsrc⟩ := hx
      obtain rfl := h.single e he e' he' f hf hsrc.symm (hdst.trans hsrc.symm)
      exact ih hby' ⟨e, he, rfl⟩

variable {e' f : ι}

theorem not_above (h : Forest edges src dst) (he : e ∈ edges) :
    ¬ ReflTransGen (Next edges src dst) (dst e) (src e) :=
  fun hpath => h.acyclic (src e) (TransGen.head' (next_of_mem he) hpath)

/-- A path from one child to another would go through their parent. -/
theorem not_across (h : Forest edges src dst) (he : e ∈ edges) (he' : e' ∈ edges) (hne : e ≠ e')
    (hsrc : src e = src e') (hf : f ∈ below edges src dst (dst e')) :
    ¬ ReflTransGen (Next edges src dst) (dst e) (dst e') := by
  intro hpath
  obtain ⟨g, hg, hgsrc⟩ := exists_edge hf
  rcases ReflTransGen.cases_tail hpath with heq | ⟨y, hy, e'', he'', rfl, hdst⟩
  · exact hne (h.single e he e' he' g hg (heq.symm.trans hgsrc.symm) hgsrc.symm)
  · obtain rfl := h.single e'' he'' e' he' g hg (hdst.trans hgsrc.symm) hgsrc.symm
    rw [← hsrc] at hy
    exact h.not_above he hy

theorem not_both (h : Forest edges src dst) (he : e ∈ edges) (he' : e' ∈ edges) (hne : e ≠ e')
    (hsrc : src e = src e') (hf : f ∈ below edges src dst (dst e)) :
    f ∉ below edges src dst (dst e') := by
  intro hf'
  obtain ⟨hmem, hpath⟩ := mem_below.mp hf
  obtain ⟨-, hpath'⟩ := mem_below.mp hf'
  rcases h.comparable hpath hpath' ⟨f, hmem, rfl⟩ with hacross | hacross
  · exact h.not_across he he' hne hsrc hf' hacross
  · exact h.not_across he' he hne.symm hsrc.symm hf hacross

/-- What is below a node is its edges and what is below their ends. -/
theorem below_eq [DecidableEq ι] [DecidableEq α] (a : α) : below edges src dst a =
      (edges.filter fun e => src e = a).biUnion fun e => insert e (below edges src dst (dst e)) := by
  ext f
  rw [mem_below, mem_biUnion]
  constructor
  · rintro ⟨hf, hpath⟩
    rcases ReflTransGen.cases_head hpath with heq | ⟨b, ⟨e, he, hsrc, hdst⟩, hrest⟩
    · exact ⟨f, mem_filter.mpr ⟨hf, heq.symm⟩, mem_insert_self _ _⟩
    · refine ⟨e, mem_filter.mpr ⟨he, hsrc⟩, mem_insert_of_mem ?_⟩
      rw [← hdst] at hrest
      exact mem_below.mpr ⟨hf, hrest⟩
  rintro ⟨e, he, hf⟩
  obtain ⟨hmem, rfl⟩ := mem_filter.mp he
  rcases mem_insert.mp hf with rfl | hbelow
  · exact ⟨hmem, .refl⟩
  · obtain ⟨hf', hpath⟩ := mem_below.mp hbelow
    exact ⟨hf', .head (next_of_mem hmem) hpath⟩

theorem notMem_below (h : Forest edges src dst) (he : e ∈ edges) (hsrc : src e = src e') :
    e' ∉ below edges src dst (dst e) := by
  intro hmem
  obtain ⟨-, hpath⟩ := mem_below.mp hmem
  rw [← hsrc] at hpath
  exact h.not_above he hpath

/-- **A sum below a node is taken edge by edge.** -/
theorem sum_below [AddCommMonoid M] [DecidableEq ι] [DecidableEq α] (h : Forest edges src dst)
    (w : ι → M) (a : α) : ∑ f ∈ below edges src dst a, w f =
      ∑ e ∈ edges.filter fun e => src e = a, (w e + ∑ f ∈ below edges src dst (dst e), w f) := by
  rw [below_eq a, sum_biUnion]
  · refine sum_congr rfl fun e he => ?_
    exact sum_insert (h.notMem_below (mem_filter.mp he).1 rfl)
  intro e he e' he' hne
  obtain ⟨hmem, hsrc⟩ := mem_filter.mp he
  obtain ⟨hmem', hsrc'⟩ := mem_filter.mp he'
  have hsame : src e = src e' := hsrc.trans hsrc'.symm
  refine disjoint_left.mpr fun f hf hf' => ?_
  rcases mem_insert.mp hf with rfl | hbelow
  · rcases mem_insert.mp hf' with heq | hbelow'
    · exact hne heq
    · exact h.notMem_below hmem' hsame.symm hbelow'
  · rcases mem_insert.mp hf' with rfl | hbelow'
    · exact h.notMem_below hmem hsame hbelow
    · exact h.not_both hmem hmem' hne hsame hbelow hbelow'

/-- There is less below the end of an edge than below its start. -/
theorem card_below_lt (h : Forest edges src dst) (he : e ∈ edges) :
    (below edges src dst (dst e)).card < (below edges src dst (src e)).card := by
  refine card_lt_card (ssubset_iff_of_subset ?_ |>.mpr ?_)
  · intro f hf
    obtain ⟨hmem, hpath⟩ := mem_below.mp hf
    exact mem_below.mpr ⟨hmem, .head (next_of_mem he) hpath⟩
  · exact ⟨e, mem_below.mpr ⟨he, .refl⟩, h.notMem_below he rfl⟩

end Forest

end EdgeSum
