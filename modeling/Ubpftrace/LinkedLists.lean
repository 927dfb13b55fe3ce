import Mathlib.Data.List.Induction

/-!
# Doubly linked lists

The links of a list are a head, a tail and two pointers in each cell. They are
consistent for a sequence of cells if each cell points to its neighbours there. A cell
is cut out, or put in front, by writing the pointers of its neighbours.
-/

namespace LinkedLists

structure Links (P : Type) where
  head : Option P
  tail : Option P
  next : P → Option P
  prev : P → Option P

variable {P : Type}

/-- The links are those of the cells `xs` in this order. -/
structure Linked (l : Links P) (xs : List P) : Prop where
  nodup : xs.Nodup
  head : l.head = xs.head?
  tail : l.tail = xs.getLast?
  next : ∀ as x bs, xs = as ++ x :: bs → l.next x = bs.head?
  prev : ∀ as x bs, xs = as ++ x :: bs → l.prev x = as.getLast?

variable {l l' : Links P} {xs as bs : List P} {x : P}

theorem Linked.empty (hhead : l.head = none) (htail : l.tail = none) : Linked l [] where
  nodup := List.nodup_nil
  head := hhead
  tail := htail
  next := by simp
  prev := by simp

theorem append_eq_split {cs ds : List P} {y : P} (h : as ++ bs = cs ++ y :: ds) :
    (∃ es, as = cs ++ y :: es ∧ ds = es ++ bs) ∨ ∃ es, bs = es ++ y :: ds ∧ cs = as ++ es := by
  rcases List.append_eq_append_iff.mp h with ⟨es, hcs, hbs⟩ | ⟨es, has, hrest⟩
  · exact .inr ⟨es, hbs, hcs⟩
  · rcases List.cons_eq_append_iff.mp hrest with ⟨rfl, hbs⟩ | ⟨es', rfl, hds⟩
    · exact .inr ⟨[], hbs, by simp [has]⟩
    · exact .inl ⟨es', has, hds⟩

theorem getLast?_eq_some_iff_of_nodup {cs es : List P} {y : P} (h : (cs ++ y :: es).Nodup) :
    (cs ++ y :: es).getLast? = some y ↔ es = [] := by
  rcases List.eq_nil_or_concat es with rfl | ⟨es, z, rfl⟩
  · simp
  · have hne : z ≠ y := by
      rintro rfl
      simp [List.nodup_append] at h
    rw [List.concat_eq_append, ← List.cons_append, ← List.append_assoc, List.getLast?_concat]
    simp [hne]

theorem head?_eq_some_iff_of_nodup {cs es : List P} {y : P} (h : (cs ++ y :: es).Nodup) :
    (cs ++ y :: es).head? = some y ↔ cs = [] := by
  cases cs with
  | nil => simp
  | cons c cs =>
    have hne : c ≠ y := by
      rintro rfl
      simp at h
    simp [hne]

theorem Linked.head_eq_iff (h : Linked l (as ++ x :: bs)) : l.head = some x ↔ as = [] := by
  rw [h.head, head?_eq_some_iff_of_nodup h.nodup]

theorem Linked.tail_eq_iff (h : Linked l (as ++ x :: bs)) : l.tail = some x ↔ bs = [] := by
  rw [h.tail, getLast?_eq_some_iff_of_nodup h.nodup]

section Surgery

variable [DecidableEq P]

/-- The pointers at which two link structures differ when a cell between `as` and `bs` is cut out. -/
structure Cut (l l' : Links P) (as bs : List P) : Prop where
  head : l'.head = (as ++ bs).head?
  tail : l'.tail = (as ++ bs).getLast?
  next : ∀ p ∈ as ++ bs, l'.next p = if as.getLast? = some p then bs.head? else l.next p
  prev : ∀ p ∈ as ++ bs, l'.prev p = if bs.head? = some p then as.getLast? else l.prev p

theorem Linked.cut (h : Linked l (as ++ x :: bs)) (hc : Cut l l' as bs) : Linked l' (as ++ bs) := by
  have hsub : (as ++ bs).Sublist (as ++ x :: bs) := List.Sublist.append_left (List.sublist_cons_self x bs) as
  have hnodup : (as ++ bs).Nodup := h.nodup.sublist hsub
  obtain ⟨has, hbs, hdisj⟩ := List.nodup_append.mp hnodup
  constructor
  · exact hnodup
  · exact hc.head
  · exact hc.tail
  · intro cs y ds hsplit
    rw [hc.next y (by simp [hsplit])]
    rcases append_eq_split hsplit with ⟨es, rfl, rfl⟩ | ⟨es, rfl, rfl⟩
    · simp only [getLast?_eq_some_iff_of_nodup has, h.next cs y (es ++ x :: bs) (by simp)]
      cases es <;> simp
    · have hne : as.getLast? ≠ some y := fun heq => hdisj y (List.mem_of_getLast? heq) y (by simp) rfl
      rw [if_neg hne, h.next (as ++ x :: es) y ds (by simp)]
  · intro cs y ds hsplit
    rw [hc.prev y (by simp [hsplit])]
    rcases append_eq_split hsplit with ⟨es, rfl, rfl⟩ | ⟨es, rfl, rfl⟩
    · have hne : bs.head? ≠ some y := fun heq => hdisj y (by simp) y (List.mem_of_mem_head? heq) rfl
      rw [if_neg hne, h.prev cs y (es ++ x :: bs) (by simp)]
    · simp only [head?_eq_some_iff_of_nodup hbs, h.prev (as ++ x :: es) y ds (by simp)]
      cases es using List.reverseRecOn <;> simp [List.getLast?_cons]

/-- The pointers at which two link structures differ when a cell is put in front. -/
structure Push (l l' : Links P) (x : P) (xs : List P) : Prop where
  head : l'.head = some x
  tail : l'.tail = (x :: xs).getLast?
  next_new : l'.next x = xs.head?
  prev_new : l'.prev x = none
  next : ∀ p ∈ xs, l'.next p = l.next p
  prev : ∀ p ∈ xs, l'.prev p = if xs.head? = some p then some x else l.prev p

theorem Linked.push (h : Linked l xs) (hx : x ∉ xs) (hp : Push l l' x xs) : Linked l' (x :: xs) := by
  constructor
  · exact List.nodup_cons.mpr ⟨hx, h.nodup⟩
  · exact hp.head
  · exact hp.tail
  · intro as y bs hsplit
    rcases List.cons_eq_append_iff.mp hsplit with ⟨rfl, hcons⟩ | ⟨cs, rfl, hxs⟩
    · cases hcons
      exact hp.next_new
    · rw [hp.next y (by simp [hxs]), h.next cs y bs hxs]
  · intro as y bs hsplit
    rcases List.cons_eq_append_iff.mp hsplit with ⟨rfl, hcons⟩ | ⟨cs, rfl, hxs⟩
    · cases hcons
      exact hp.prev_new
    · rw [hp.prev y (by simp [hxs])]
      have hnodup := h.nodup
      rw [hxs] at hnodup
      simp only [h.prev cs y bs hxs, hxs, head?_eq_some_iff_of_nodup hnodup]
      cases cs using List.reverseRecOn <;> simp [List.getLast?_cons]

end Surgery

end LinkedLists
