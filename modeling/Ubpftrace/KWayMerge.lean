import Mathlib.Data.List.MinMax
import Mathlib.Data.List.Perm.Basic

/-!
# Merging any number of lists by a key

A merge takes, again and again, the head of one of its sources whose key is
smallest among the heads, in any order among equal keys. It reorders nothing
inside a source, so its result is sorted exactly if every source is.
-/

namespace KWayMerge

variable {α κ : Type}

/-- A priority queue: it gives out some element with a smallest key. -/
structure MinQueue (key : α → κ) [LE κ] where
  pop : List α → Option (α × List α)
  pop_eq_none : ∀ l, pop l = none → l = []
  pop_perm : ∀ l x rest, pop l = some (x, rest) → l.Perm (x :: rest)
  pop_le : ∀ l x rest, pop l = some (x, rest) → ∀ y ∈ rest, key x ≤ key y

/-- A queue that looks through all its elements and takes the first smallest one. -/
def scanQueue [DecidableEq α] [LinearOrder κ] (key : α → κ) : MinQueue key where
  pop := fun l => (l.argmin key).map fun x => (x, l.erase x)
  pop_eq_none := by
    intro l h
    exact List.argmin_eq_none.mp (Option.map_eq_none_iff.mp h)
  pop_perm := by
    intro l x rest h
    obtain ⟨y, hy, heq⟩ := Option.map_eq_some_iff.mp h
    cases heq
    exact List.perm_cons_erase (List.argmin_mem hy)
  pop_le := by
    intro l x rest h z hz
    obtain ⟨y, hy, heq⟩ := Option.map_eq_some_iff.mp h
    cases heq
    exact List.le_of_mem_argmin (List.mem_of_mem_erase hz) hy

/-- The sources after the head of one was taken; an exhausted one is dropped. -/
def refill (xs : List α) (rest : List (List α)) : List (List α) := if xs = [] then rest else xs :: rest

inductive Merged (key : α → κ) [LE κ] : List (List α) → List α → Prop where
  | nil : Merged key [] []
  | pop {srcs rest : List (List α)} {x : α} {xs out : List α} (split : srcs.Perm ((x :: xs) :: rest))
      (least : ∀ l ∈ rest, ∀ y ∈ l.head?, key x ≤ key y) (tail : Merged key (refill xs rest) out) :
      Merged key srcs (x :: out)

def SortedBy (key : α → κ) [LE κ] (l : List α) : Prop := l.Pairwise fun x y => key x ≤ key y

/-- In a list that is ordered by an asymmetric relation, what holds of all its pairs in their order
holds of all elements that are so related. -/
theorem pairwise_iff_forall {B R : α → α → Prop} (hasymm : ∀ a b, B a b → ¬ B b a) {l : List α} (hl : l.Pairwise B) :
    l.Pairwise R ↔ ∀ a ∈ l, ∀ b ∈ l, B a b → R a b := by
  refine ⟨fun hR a ha b hb => ?_, fun h => hl.imp_of_mem fun ha hb hab => h _ ha _ hb hab⟩
  refine List.Pairwise.forall_of_forall_of_flip (R := fun a b => B a b → R a b) ?_ (hR.imp ?_) (hl.imp ?_) ha hb
  · exact fun x _ hx => absurd hx (hasymm x x hx)
  · exact fun hab _ => hab
  · exact fun hab hba => absurd hba (hasymm _ _ hab)

theorem mem_refill {xs l : List α} {rest : List (List α)} (h : l ∈ refill xs rest) : l = xs ∨ l ∈ rest := by
  rw [refill] at h
  split at h
  · exact Or.inr h
  · exact List.mem_cons.mp h

theorem flatten_refill (xs : List α) (rest : List (List α)) : (refill xs rest).flatten = xs ++ rest.flatten := by
  rw [refill]
  split
  · next h => rw [h, List.nil_append]
  · rw [List.flatten_cons]

variable {key : α → κ} {srcs : List (List α)} {out : List α}

section LE

variable [LE κ]

theorem Merged.perm (h : Merged key srcs out) : out.Perm srcs.flatten := by
  induction h with
  | nil => exact List.Perm.refl _
  | pop split least tail ih =>
    rw [flatten_refill] at ih
    have hflat := split.flatten
    exact (ih.cons _).trans hflat.symm

theorem Merged.sublist (h : Merged key srcs out) {l : List α} (hl : l ∈ srcs) : l.Sublist out := by
  induction h generalizing l with
  | nil => cases hl
  | @pop srcs rest x xs out split least tail ih =>
    obtain rfl | hrest := List.mem_cons.mp (split.mem_iff.mp hl)
    · by_cases hxs : xs = []
      · subst hxs
        exact List.Sublist.cons_cons x (List.nil_sublist out)
      · apply List.Sublist.cons_cons x
        apply ih
        rw [refill, if_neg hxs]
        exact List.mem_cons_self
    · apply List.Sublist.cons x
      apply ih
      rw [refill]
      split
      · exact hrest
      · exact List.mem_cons_of_mem _ hrest

/-- A relation inside every source and, both ways, between any two of them holds along the merge. -/
theorem Merged.pairwise {R : α → α → Prop} (h : Merged key srcs out) (hin : ∀ l ∈ srcs, l.Pairwise R)
    (hacross : srcs.Pairwise fun l l' => ∀ a ∈ l, ∀ b ∈ l', R a b ∧ R b a) : out.Pairwise R := by
  induction h with
  | nil => exact List.Pairwise.nil
  | @pop srcs rest x xs out split least tail ih =>
    obtain ⟨hx, hxs⟩ := List.pairwise_cons.mp (hin _ (split.mem_iff.mpr List.mem_cons_self))
    have hsplit := (split.pairwise_iff fun hR a ha b hb => (hR b hb a ha).symm).mp hacross
    obtain ⟨hfirst, hrest⟩ := List.pairwise_cons.mp hsplit
    refine List.pairwise_cons.mpr ⟨fun y hy => ?_, ih (fun l hl => ?_) ?_⟩
    · have hmem := tail.perm.mem_iff.mp hy
      rw [flatten_refill] at hmem
      obtain hy | hy := List.mem_append.mp hmem
      · exact hx y hy
      · obtain ⟨l, hl, hyl⟩ := List.mem_flatten.mp hy
        exact (hfirst l hl x List.mem_cons_self y hyl).1
    · obtain rfl | hl := mem_refill hl
      · exact hxs
      · exact hin l (split.mem_iff.mpr (List.mem_cons_of_mem _ hl))
    · rw [refill]
      split
      · exact hrest
      · exact List.pairwise_cons.mpr ⟨fun l hl a ha => hfirst l hl a (List.mem_cons_of_mem _ ha), hrest⟩

/-- What stands for the elements of the sources goes along with them: a merge of the
images is the image of a merge. -/
theorem Merged.lift {β : Type} {f : β → α} {bs : List (List β)} (h : Merged key (bs.map (List.map f)) out) :
    ∃ os, out = os.map f ∧ Merged (key ∘ f) bs os := by
  generalize hsrcs : bs.map (List.map f) = srcs at h
  induction h generalizing bs with
  | nil =>
    obtain rfl := List.map_eq_nil_iff.mp hsrcs
    exact ⟨[], rfl, .nil⟩
  | @pop srcs rest x xs out split least tail ih =>
    -- the split of the images comes from one of the sources themselves
    have hcomp : Relation.Comp (· = List.map (List.map f) ·) List.Perm ((x :: xs) :: rest) bs := by
      subst hsrcs
      rw [List.eq_map_comp_perm]
      exact split.symm
    obtain ⟨bs', hmap, hperm⟩ := hcomp
    obtain ⟨b, rest', rfl, hb, rfl⟩ := List.map_eq_cons_iff.mp hmap.symm
    obtain ⟨y, ys, rfl, rfl, rfl⟩ := List.map_eq_cons_iff.mp hb
    have hrefill : (refill ys rest').map (List.map f) = refill (ys.map f) (rest'.map (List.map f)) := by
      cases ys <;> rfl
    obtain ⟨os, rfl, hos⟩ := ih hrefill
    refine ⟨y :: os, rfl, .pop hperm.symm ?_ hos⟩
    intro l hl z hz
    exact least (l.map f) (List.mem_map_of_mem hl) (f z) (by rw [List.head?_map, hz]; rfl)

end LE

theorem Merged.sorted [Preorder κ] (h : Merged key srcs out) (hs : ∀ l ∈ srcs, SortedBy key l) :
    SortedBy key out := by
  induction h with
  | nil => exact List.Pairwise.nil
  | @pop srcs rest x xs out split least tail ih =>
    have hcons : SortedBy key (x :: xs) := hs _ (split.mem_iff.mpr List.mem_cons_self)
    have hrest : ∀ l ∈ rest, SortedBy key l :=
      fun l hl => hs l (split.mem_iff.mpr (List.mem_cons_of_mem _ hl))
    obtain ⟨hhead, htail⟩ := List.pairwise_cons.mp hcons
    have hrefill : ∀ l ∈ refill xs rest, SortedBy key l := by
      intro l hl
      obtain rfl | hl := mem_refill hl
      · exact htail
      · exact hrest l hl
    refine List.pairwise_cons.mpr ⟨?_, ih hrefill⟩
    intro y hy
    have hmem := tail.perm.mem_iff.mp hy
    rw [flatten_refill] at hmem
    obtain hy | hy := List.mem_append.mp hmem
    · exact hhead y hy
    · -- an element of another source is not before the head of that source
      obtain ⟨l, hl, hyl⟩ := List.mem_flatten.mp hy
      cases l with
      | nil => cases hyl
      | cons z zs =>
        have hxz : key x ≤ key z := least _ hl z rfl
        obtain rfl | hyz := List.mem_cons.mp hyl
        · exact hxz
        · exact hxz.trans ((List.pairwise_cons.mp (hrest _ hl)).1 y hyz)

theorem Merged.sorted_iff [Preorder κ] (h : Merged key srcs out) :
    SortedBy key out ↔ ∀ l ∈ srcs, SortedBy key l :=
  ⟨fun ho _ hl => ho.sublist (h.sublist hl), h.sorted⟩

end KWayMerge
