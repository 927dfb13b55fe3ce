import Mathlib.Algebra.Group.Nat.Defs
import Mathlib.Data.List.GetD
import Mathlib.Data.List.Infix

/-!
# The lexer of attach points

`lex_attachpoint` splits the text of an attach point at colons. A positional parameter
outside of quotes is replaced by its value, and the scan goes on with the first
character of the value, so that a parameter in a value is replaced in its turn.
-/

namespace AttachPointLexer

abbrev Outcome := Except String (List String)

/-- The locals of the loop; `raw` is what is still to be scanned. -/
structure Scan where
  raw : List Char
  inQuotes : Bool := false
  argument : List Char := []
  parts : List String := []

/-- The digits behind a `$`; the first one is not 0. -/
def paramDigits (raw : List Char) : List Char :=
  if raw.head? = some '0' then [] else raw.takeWhile Char.isDigit

/-- `to_uint` in base 10, on digits. -/
def toUint (digits : List Char) : Except String Nat :=
  let n := digits.foldl (fun n c => 10 * n + (c.toNat - 48)) 0
  if digits = [] then .error "invalid integer: "
  else if n < 2 ^ 64 then .ok n
  else .error ("overflow error, maximum value is 18446744073709551615: " ++ String.ofList digits)

/-- `BPFtrace::get_param`. -/
def getParam (params : List (List Char)) (i : Nat) : List Char := params.getD (i - 1) []

/-- A `$` outside of quotes. -/
def lexParam (params : List (List Char)) (s : Scan) : Outcome ⊕ Scan :=
  if paramDigits s.raw = [] ∧ s.raw ≠ [] then
    .inl (.error ("invalid trailing character for positional param: " ++ String.ofList (s.raw.take 1) ++
      ". Try quoting this entire part if this is intentional e.g. \"$" ++ String.ofList (s.raw.take 1) ++ "\"."))
  else
    match toUint (paramDigits s.raw) with
    | .error e => .inl (.error ("positional parameter is not valid: " ++ e ++ "\n"))
    | .ok i => .inr { s with raw := getParam params i ++ s.raw.drop (paramDigits s.raw).length }

/-- One round of `lex_attachpoint`, at the character `c`. -/
def lexRound (params : List (List Char)) (c : Char) (s : Scan) : Outcome ⊕ Scan :=
  if (c = ':' ∨ c = '@') ∧ ¬ s.inQuotes then
    .inr { s with argument := [], parts := s.parts ++ String.ofList s.argument :: if c = '@' then ["@"] else [] }
  else if c = '"' then .inr { s with inQuotes := !s.inQuotes }
  else if s.inQuotes ∧ c = '\\' ∧ s.raw ≠ [] then
    .inr { s with raw := s.raw.tail, argument := s.argument ++ s.raw.take 1 }
  else if ¬ s.inQuotes ∧ c = '$' then lexParam params s
  else .inr { s with argument := s.argument ++ [c] }

/-- The loop, for a number of rounds; `none` if they are not enough. -/
def lexLoop (params : List (List Char)) : Nat → Scan → Option Outcome
  | 0, _ => none
  | n + 1, s =>
    match s.raw with
    | [] => some (.ok (s.parts ++ [String.ofList s.argument]))
    | c :: raw =>
      match lexRound params c { s with raw } with
      | .inl outcome => some outcome
      | .inr s => lexLoop params n s

def lexAttachpoint (params : List (List Char)) (n : Nat) (raw : List Char) : Option Outcome := lexLoop params n { raw }

variable {params : List (List Char)} {c : Char} {raw : List Char} {s s' : Scan}

/-- What follows a `$` that is replaced. -/
def StartsParam (raw : List Char) : Prop := ∃ d ∈ raw.head?, d.isDigit = true ∧ d ≠ '0'

theorem paramDigits_spec (h : paramDigits raw ≠ []) :
    StartsParam raw ∧ raw.drop (paramDigits raw).length = raw.dropWhile Char.isDigit := by
  unfold paramDigits at h ⊢
  split at h
  · exact absurd rfl h
  · next hzero =>
    rw [if_neg hzero]
    constructor
    · cases raw with
      | nil => exact absurd rfl h
      | cons d raw =>
        refine ⟨d, rfl, ?_, fun hd => hzero (by rw [hd]; rfl)⟩
        by_contra hd
        exact h (List.takeWhile_cons_of_neg hd)
    · nth_rewrite 2 [← List.takeWhile_append_dropWhile (p := Char.isDigit) (l := raw)]
      exact List.drop_left

/-- What is left after a round: the rest of the text, the rest without a quoted character, or the
value of a parameter and what stands behind its number. -/
theorem raw_lexRound (h : lexRound params c s = .inr s') :
    s'.raw = s.raw ∨ s'.raw = s.raw.tail ∨
      (c = '$' ∧ StartsParam s.raw ∧ ∃ i, s'.raw = getParam params i ++ s.raw.dropWhile Char.isDigit) := by
  unfold lexRound at h
  split at h
  · exact .inl (Sum.inr.inj h ▸ rfl)
  split at h
  · exact .inl (Sum.inr.inj h ▸ rfl)
  split at h
  · exact .inr (.inl (Sum.inr.inj h ▸ rfl))
  split at h
  · next hdollar =>
    unfold lexParam at h
    split at h
    · cases h
    split at h
    · cases h
    · next i hi =>
      have hne : paramDigits s.raw ≠ [] := by
        intro hnil
        rw [hnil] at hi
        cases hi
      obtain ⟨hstarts, hdrop⟩ := paramDigits_spec hne
      rw [hdrop] at h
      exact .inr (.inr ⟨hdollar.2, hstarts, i, Sum.inr.inj h ▸ rfl⟩)
  · exact .inl (Sum.inr.inj h ▸ rfl)

/-- The loop ends, from any state with this text or an end of it. -/
def Ends (params : List (List Char)) (raw : List Char) : Prop :=
  ∀ s : Scan, s.raw <:+ raw → ∃ n outcome, lexLoop params n s = some outcome

theorem ends_nil : Ends params [] := fun s hs => ⟨1, _, by rw [lexLoop, List.suffix_nil.mp hs]⟩

theorem ends_cons (hrest : Ends params raw)
    (hparam : c = '$' → StartsParam raw → ∀ i, Ends params (getParam params i ++ raw.dropWhile Char.isDigit)) :
    Ends params (c :: raw) := by
  intro s hs
  obtain hs | hs := List.suffix_cons_iff.mp hs
  · cases hround : lexRound params c { s with raw } with
    | inl outcome => exact ⟨1, outcome, by simp only [lexLoop, hs, hround]⟩
    | inr s' =>
      obtain ⟨n, outcome, hend⟩ : ∃ n outcome, lexLoop params n s' = some outcome := by
        obtain h | h | ⟨hdollar, hstarts, i, h⟩ := raw_lexRound hround
        · exact hrest s' (h ▸ List.suffix_rfl)
        · exact hrest s' (h ▸ List.tail_suffix raw)
        · exact hparam hdollar hstarts i s' (h ▸ List.suffix_rfl)
      exact ⟨n + 1, outcome, by simp only [lexLoop, hs, hround, hend]⟩
  · exact hrest s hs

/-- No `$` of a value is followed by a number, so that its expansion ends there. -/
def Plain (v : List Char) : Prop := ∀ u, '$' :: u <:+ v → ¬ StartsParam u

theorem plain_getParam (hparams : ∀ v ∈ params, Plain v) (i : Nat) : Plain (getParam params i) := by
  rw [getParam, List.getD_eq_getElem?_getD]
  cases hv : params[i - 1]? with
  | none => exact fun u hu => absurd (List.suffix_nil.mp hu) (List.cons_ne_nil _ _)
  | some v => exact hparams v (List.mem_of_getElem? hv)

/-- The text `t` comes from a value, and no digit follows it, so that only a `$` of `u` is
replaced. This leaves less of `u`. -/
theorem ends_append (hparams : ∀ v ∈ params, Plain v) (t u : List Char) (ht : Plain t)
    (hu : t ≠ [] → ∀ d ∈ u.head?, ¬ d.isDigit = true) : Ends params (t ++ u) := by
  match t, u with
  | [], [] => exact ends_nil
  | [], c :: u =>
    have hless : (u.dropWhile Char.isDigit).length ≤ u.length := (List.dropWhile_sublist _).length_le
    refine ends_cons (ends_append hparams [] u ht (absurd rfl)) fun _ _ i => ?_
    refine ends_append hparams _ (u.dropWhile Char.isDigit) (plain_getParam hparams i) fun _ d hd => ?_
    have hstop := List.head?_dropWhile_not Char.isDigit u
    rw [hd] at hstop
    simpa using hstop
  | c :: t, u =>
    have htail : Plain t := fun v hv => ht v (hv.trans (List.suffix_cons c t))
    have hrest := ends_append hparams t u htail fun _ => hu (List.cons_ne_nil _ _)
    refine ends_cons hrest fun hdollar ⟨d, hd, hdigit, hzero⟩ => ?_
    cases t with
    | nil => exact absurd hdigit (hu (List.cons_ne_nil _ _) d hd)
    | cons e t => exact absurd ⟨d, hd, hdigit, hzero⟩ (ht (e :: t) (hdollar ▸ List.suffix_rfl))
termination_by (u.length, t.length)

theorem lexAttachpoint_self {d : Char} (hdigit : d.isDigit = true) (hzero : d ≠ '0')
    (hvalue : getParam params (d.toNat - 48) = ['$', d]) (n : Nat) : lexAttachpoint params n ['$', d] = none := by
  have hround : lexRound params '$' { raw := [d] } = .inr { raw := ['$', d] } := by
    have hlt : d.toNat < 4294967296 := d.val.toNat_lt
    have hsmall : d.toNat - 48 < 18446744073709551616 := by omega
    simp [lexRound, lexParam, paramDigits, toUint, hdigit, hzero, hsmall, hvalue]
  induction n with
  | zero => rfl
  | succ n ih => simpa only [lexAttachpoint, lexLoop, hround] using ih

/-- With parameters in whose values no `$` stands before a number, every text of an attach point is
scanned to its end. For every set of characters: with all parameters made of them, every text is
exactly if `$` is not in the set, or none of the digits from 1 to 9. -/
theorem lex_terminates_iff (A : Char → Prop) :
    (∀ params raw, (∀ v ∈ params, Plain v) → ∃ n outcome, lexAttachpoint params n raw = some outcome) ∧
      ((∀ params raw, (∀ v ∈ params, ∀ c ∈ v, A c) → ∃ n outcome, lexAttachpoint params n raw = some outcome) ↔
        ∀ d, A '$' → A d → d.isDigit = true → d = '0') := by
  have hplain (params : List (List Char)) (raw : List Char) (hparams : ∀ v ∈ params, Plain v) :
      ∃ n outcome, lexAttachpoint params n raw = some outcome :=
    ends_append hparams [] raw (fun u hu => absurd (List.suffix_nil.mp hu) (List.cons_ne_nil _ _)) (absurd rfl) _
      List.suffix_rfl
  refine ⟨hplain, ?_⟩
  constructor
  · intro h d hdollar hd hdigit
    by_contra hzero
    have hlast : d.toNat ≤ 57 := of_decide_eq_true (Bool.and_eq_true_iff.mp hdigit).2
    have hmade : ∀ v ∈ List.replicate 9 ['$', d], ∀ c ∈ v, A c := by
      intro v hv
      rw [List.eq_of_mem_replicate hv]
      simp [hdollar, hd]
    obtain ⟨n, outcome, hend⟩ := h _ ['$', d] hmade
    rw [lexAttachpoint_self hdigit hzero (List.getD_replicate _ (by omega))] at hend
    cases hend
  · intro hA params raw hparams
    refine hplain params raw fun v hv u hu => ?_
    rintro ⟨d, hd, hdigit, hzero⟩
    have hin : ∀ c ∈ '$' :: u, A c := fun c hc => hparams v hv c (hu.subset hc)
    exact hzero (hA d (hin _ (.head _)) (hin d (.tail _ (List.mem_of_mem_head? hd))) hdigit)

/-- The first parameter is `$1`. -/
theorem self_reference_is_expanded_forever :
    ¬ ∃ n outcome, lexAttachpoint [['$', '1']] n ['$', '1'] = some outcome := by
  rintro ⟨n, outcome, hend⟩
  rw [lexAttachpoint_self (by decide) (by decide) rfl] at hend
  cases hend

/-! ## Quoted parts -/

/-- A part between quotes. -/
def quoted (part : List Char) : List Char :=
  '"' :: part.flatMap (fun c => if c = '"' ∨ c = '\\' then ['\\', c] else [c]) ++ ['"']

/-- Quotes keep the scan from everything else: the part is taken as it is. -/
theorem lexLoop_quoted (part rest argument : List Char) (parts : List String) :
    ∃ k, ∀ n, lexLoop params (n + k) { raw := quoted part ++ rest, argument, parts } =
      lexLoop params n { raw := rest, argument := argument ++ part, parts } := by
  suffices hinside : ∃ k, ∀ n, lexLoop params (n + k) ⟨(quoted part).tail ++ rest, true, argument, parts⟩ =
      lexLoop params n { raw := rest, argument := argument ++ part, parts } by
    obtain ⟨k, hk⟩ := hinside
    exact ⟨k + 1, fun n => (by simp [lexLoop, lexRound, quoted, ← hk])⟩
  induction part generalizing argument with
  | nil => exact ⟨1, fun n => by simp [quoted, lexLoop, lexRound]⟩
  | cons c part ih =>
    obtain ⟨k, hk⟩ := ih (argument ++ [c])
    refine ⟨k + 1, fun n => ?_⟩
    rw [← Nat.add_assoc, List.append_cons, ← hk n]
    by_cases hc : c = '"' ∨ c = '\\'
    · obtain rfl | rfl := hc <;> simp [quoted, lexLoop, lexRound]
    · simp only [not_or] at hc
      simp [quoted, lexLoop, lexRound, hc]

/-- Whatever the parts are and whatever the parameters: parts that are quoted and joined by colons are
what the lexer gives back. -/
theorem lex_quoted_parts (params : List (List Char)) (first : List Char) (others : List (List Char)) :
    ∃ n, lexAttachpoint params n (quoted first ++ others.flatMap fun part => ':' :: quoted part) =
      some (.ok ((first :: others).map String.ofList)) := by
  suffices hscan : ∀ parts, ∃ n,
      lexLoop params n { raw := quoted first ++ others.flatMap (fun part => ':' :: quoted part), parts } =
      some (.ok (parts ++ (first :: others).map String.ofList)) from hscan []
  induction others generalizing first with
  | nil =>
    intro parts
    obtain ⟨k, hk⟩ := @lexLoop_quoted params first [] [] parts
    exact ⟨1 + k, (hk 1).trans (by simp [lexLoop])⟩
  | cons part others ih =>
    intro parts
    obtain ⟨n, hn⟩ := ih part (parts ++ [String.ofList first])
    obtain ⟨k, hk⟩ := @lexLoop_quoted params first ((part :: others).flatMap fun part => ':' :: quoted part) [] parts
    refine ⟨n + 1 + k, (hk (n + 1)).trans ?_⟩
    simpa [lexLoop, lexRound] using hn

end AttachPointLexer
