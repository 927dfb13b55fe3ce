import Mathlib.Algebra.Group.Nat.Defs
import Mathlib.Data.List.Infix

/-!
# Similar strings

`is_similar` looks for the longest common substring of two strings: a window of the first one
grows at its end while the second one has it, and else loses its first character. `common` is the
length of the window that was found last, also where an earlier one was longer.
-/

namespace Similar

/-- `needle.substr(i, j - i)`. -/
def window (user : List Char) (i j : Nat) : List Char := (user.drop i).take (j - i)

/-- The loop of `is_similar`. `i` and `j` have the type `int`: `none` is the overflow of `j++`, and
`i`, which stays below `j` where it grows, has none. -/
def windowLoop (user target : List Char) (i j common : Nat) : Option Nat :=
  if j ≤ user.length then
    if window user i j <:+: target then
      if j + 1 < 2 ^ 31 then windowLoop user target i (j + 1) (j - i) else none
    else windowLoop user target (i + 1) j common
  else some common
termination_by (user.length + 1 - i) + (user.length + 1 - j)
decreasing_by
  · omega
  · have hin : i < user.length := by
      by_contra hout
      rename_i hmissing
      rw [window, List.drop_eq_nil_of_le (Nat.le_of_not_lt hout), List.take_nil] at hmissing
      exact hmissing List.nil_infix
    omega

/-- The value of `common` behind the loop. -/
def common (user target : List Char) : Option Nat := windowLoop user target 0 1 0

def isSimilar (user target : List Char) : Option Bool :=
  (common user target).map fun common => 1 < common && min user.length target.length / 2 ≤ common

/-- The length of the longest string with a property. -/
def IsLongest (P : List Char → Prop) (n : Nat) : Prop :=
  (∃ v, P v ∧ v.length = n) ∧ ∀ v, P v → v.length ≤ n

variable {user target : List Char} {i j : Nat}

theorem window_suffix (i : Nat) (hj : j ≤ user.length) :
    window user i j <:+ user.take j ∧ (window user i j).length = j - i := by
  rw [window, ← List.drop_take, List.length_drop, List.length_take, Nat.min_eq_left hj]
  exact ⟨List.drop_suffix _ _, rfl⟩

/-- No string at the end of the first `j` characters that is in the target is longer than the window. -/
def Bounded (user target : List Char) (i j : Nat) : Prop :=
  ∀ v, v <:+ user.take j → v <:+: target → v.length ≤ j - i

/-- A longer string at the end of the grown window would have been one before. -/
theorem Bounded.grow (h : Bounded user target i j) (hi : i ≤ j) (hj : j < user.length) :
    Bounded user target i (j + 1) := by
  intro v hsuffix hin
  rcases List.eq_nil_or_concat v with rfl | ⟨w, c, rfl⟩
  · exact Nat.zero_le _
  · rw [List.concat_eq_append] at *
    rw [List.take_succ_eq_append_getElem hj] at hsuffix
    have hw : w <:+ user.take j := by
      obtain ⟨s, hs⟩ := hsuffix
      rw [← List.append_assoc] at hs
      exact ⟨s, (List.append_inj' hs rfl).1⟩
    have hle := h w hw ((List.prefix_append w [c]).isInfix.trans hin)
    rw [List.length_append, List.length_singleton]
    omega

/-- The window itself was the only one of its length. -/
theorem Bounded.shrink (h : Bounded user target i j) (hj : j ≤ user.length)
    (hmissing : ¬ window user i j <:+: target) : Bounded user target (i + 1) j := by
  intro v hsuffix hin
  obtain ⟨hwindow, hlen⟩ := window_suffix i hj
  have hle := h v hsuffix hin
  have hne : v.length ≠ j - i := by
    intro heq
    have hsame := (List.suffix_of_suffix_length_le hsuffix hwindow (by omega)).eq_of_length (by omega)
    exact hmissing (hsame ▸ hin)
  omega

theorem Bounded.found (h : Bounded user target i j) (hj : j ≤ user.length) (hfound : window user i j <:+: target) :
    IsLongest (fun v => v <:+ user.take j ∧ v <:+: target) (j - i) := by
  obtain ⟨hwindow, hlen⟩ := window_suffix i hj
  exact ⟨⟨_, ⟨hwindow, hfound⟩, hlen⟩, fun v hv => h v hv.1 hv.2⟩

/-- In every round `last` belongs to the characters in front of the last one of the window. -/
theorem windowLoop_spec {last : Nat} (hi : i ≤ j) (hj : j ≤ user.length + 1) (hint : j < 2 ^ 31)
    (h : j ≤ user.length → Bounded user target i j)
    (hlast : IsLongest (fun v => v <:+ user.take (j - 1) ∧ v <:+: target) last) :
    if user.length + 1 < 2 ^ 31 then
      ∃ n, windowLoop user target i j last = some n ∧ IsLongest (fun v => v <:+ user ∧ v <:+: target) n
    else windowLoop user target i j last = none := by
  fun_induction windowLoop user target i j last with
  | case1 i j last hin hfound hroom ih =>
    exact ih (by omega) (by omega) hroom (fun hj' => (h hin).grow hi hj') ((h hin).found hin hfound)
  | case2 i j last hin hfound hroom => rw [if_neg (by omega)]
  | case3 i j last hin hmissing ih =>
    have hlt : i < j := by
      by_contra hle
      rw [window, show j - i = 0 by omega, List.take_zero] at hmissing
      exact hmissing List.nil_infix
    exact ih hlt hj hint (fun hj' => (h hj').shrink hj' hmissing) hlast
  | case4 i j last hout =>
    obtain rfl : j = user.length + 1 := by omega
    rw [Nat.add_sub_cancel, List.take_length] at hlast
    rw [if_pos hint]
    exact ⟨last, rfl, hlast⟩

/-- The loop finds the longest string at the end of the first one that is in the second one. -/
theorem common_spec (user target : List Char) :
    if user.length + 1 < 2 ^ 31 then
      ∃ n, common user target = some n ∧ IsLongest (fun v => v <:+ user ∧ v <:+: target) n
    else common user target = none := by
  apply windowLoop_spec (Nat.zero_le 1) (Nat.le_add_left 1 _) (by decide)
  · intro _ v hsuffix _
    exact Nat.le_trans hsuffix.length_le (List.length_take_le 1 user)
  · refine ⟨⟨[], ⟨List.nil_suffix, List.nil_infix⟩, rfl⟩, ?_⟩
    rintro v ⟨hsuffix, -⟩
    exact hsuffix.length_le

/-- For all strings: what is compared with the threshold is the length of a longest common
substring exactly if `j` does not overflow and one of them stands at the end of the first string. -/
theorem common_longest_iff (user target : List Char) :
    (∃ n, common user target = some n ∧ IsLongest (fun v => v <:+: user ∧ v <:+: target) n) ↔
      user.length + 1 < 2 ^ 31 ∧
        ∃ v, v <:+ user ∧ v <:+: target ∧ ∀ w, w <:+: user → w <:+: target → w.length ≤ v.length := by
  have hspec := common_spec user target
  split at hspec
  · next hroom =>
    obtain ⟨n, hn, ⟨v, ⟨hsuffix, hin⟩, hlen⟩, hmost⟩ := hspec
    constructor
    · rintro ⟨n', hn', -, hall⟩
      obtain rfl := Option.some.inj (hn.symm.trans hn')
      exact ⟨hroom, v, hsuffix, hin, fun w hw hw' => hlen ▸ hall w ⟨hw, hw'⟩⟩
    · rintro ⟨-, u, hsuffix', hin', hall⟩
      refine ⟨n, hn, ⟨v, ⟨hsuffix.isInfix, hin⟩, hlen⟩, fun w hw => ?_⟩
      exact Nat.le_trans (hall w hw.1 hw.2) (hmost u ⟨hsuffix', hin'⟩)
  · next hroom =>
    rw [hspec]
    exact iff_of_false (fun ⟨n, hn, _⟩ => nomatch hn) fun h => hroom h.1

/-- The common `ab` is forgotten at the last character. -/
theorem last_character_resets_common :
    common "abx".toList "ab".toList = some 0 ∧ isSimilar "abx".toList "ab".toList = some false ∧
      IsLongest (fun v => v <:+: "abx".toList ∧ v <:+: "ab".toList) 2 := by
  have hcommon : common "abx".toList "ab".toList = some 0 := by decide +kernel
  refine ⟨hcommon, by rw [isSimilar, hcommon]; rfl, ⟨"ab".toList, by decide, rfl⟩, ?_⟩
  rintro v ⟨-, hin⟩
  exact hin.length_le

end Similar
