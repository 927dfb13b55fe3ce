import Mathlib.Data.List.Infix

/-!
# Matches in a set of strings

`get_matches_in_set` writes the strings of a set one behind the other, each with a `$` at its end,
and `get_matches_in_stream` reads lines that end with `$`. A string with a `$` in it comes back in
parts, and the parts are what is matched.
-/

namespace ProbeMatcher

/-- What is behind the leftmost place of a token, as `find` looks for it. -/
def behind (token : List Char) : List Char → Option (List Char)
  | [] => if token = [] then some [] else none
  | c :: s => if token <+: c :: s then some ((c :: s).drop token.length) else behind token s

/-- `get_wildcard_tokens`: the parts between stars that are not empty. -/
def getWildcardTokens (input : List Char) : List (List Char) := (input.splitOn '*').filter (· ≠ [])

/-- `start_wildcard` and `end_wildcard`, which keep whatever value they have for an empty input. -/
def wildcards (unset : Bool × Bool) (input : List Char) : Bool × Bool :=
  if input = [] then unset else (input.head? = some '*', input.getLast? = some '*')

def wildcardMatch (str : List Char) (tokens : List (List Char)) (start stop : Bool) : Bool :=
  (start || tokens.head?.all (· <+: str)) &&
    (tokens.foldlM (fun s token => behind token s) str).any fun rest => stop || rest.isEmpty

/-- The lines that `getline` reads; there is none behind the last delimiter. -/
def getlines (delim : Char) (stream : List Char) : List (List Char) :=
  if (stream.splitOn delim).getLast? = some [] then (stream.splitOn delim).dropLast else stream.splitOn delim

section Matches

variable (unset : Bool × Bool) (searchInput : List Char)

def accepts (line : List Char) : Bool :=
  wildcardMatch line (getWildcardTokens searchInput) (wildcards unset searchInput).1 (wildcards unset searchInput).2

/-- A variant of a kprobe that cannot be traced. -/
def isPart (line : List Char) : Bool := ".part.".toList <:+: line

/-- `get_matches_in_stream` without demangling. -/
def getMatchesInStream (stream : List Char) (delim : Char) : List (List Char) :=
  (getlines delim stream).filter fun line => accepts unset searchInput line && !isPart line

def getMatchesInSet (set : List (List Char)) : List (List Char) :=
  getMatchesInStream unset searchInput (set.flatMap (· ++ ['$'])) '$'

end Matches

theorem getlines_set (delim : Char) (set : List (List Char)) :
    getlines delim (set.flatMap (· ++ [delim])) = set.flatMap (·.splitOn delim) := by
  have hparts : (set.flatMap (· ++ [delim])).splitOn delim = set.flatMap (·.splitOn delim) ++ [[]] := by
    induction set with
    | nil => rfl
    | cons s set ih =>
      rw [List.flatMap_cons, List.append_assoc, List.singleton_append, List.splitOn_append_cons_self, ih,
        List.flatMap_cons,
        List.append_assoc]
  rw [getlines, hparts, List.getLast?_concat, if_pos rfl, List.dropLast_concat]

theorem not_mem_of_mem_splitOn {delim : Char} {s line : List Char} (h : line ∈ s.splitOn delim) : delim ∉ line := by
  induction s generalizing line with
  | nil =>
    obtain rfl := List.mem_singleton.mp h
    exact List.not_mem_nil
  | cons c s ih =>
    obtain ⟨first, lines, hs⟩ := List.exists_cons_of_ne_nil (List.splitOn_ne_nil delim s)
    rw [List.splitOn_cons_eq_if_modifyHead, hs] at h
    rw [hs] at ih
    split at h
    · obtain rfl | h := List.mem_cons.mp h
      · exact List.not_mem_nil
      · exact ih h
    · next hc =>
      obtain rfl | h := List.mem_cons.mp h
      · rw [List.mem_cons, not_or]
        exact ⟨fun heq => hc (by simp [heq]), ih List.mem_cons_self⟩
      · exact ih (List.mem_cons_of_mem _ h)

/-- For every pattern and every set: all matches are members, and all accepted members without
`.part.` are matches, exactly if those members have no `$` in them and each part between dollars
that is accepted, without `.part.`, is itself a member. -/
theorem matches_in_set_iff (unset : Bool × Bool) (searchInput : List Char) (set : List (List Char)) :
    ((∀ s ∈ getMatchesInSet unset searchInput set, s ∈ set) ∧
        ∀ s ∈ set, accepts unset searchInput s = true → isPart s = false → s ∈ getMatchesInSet unset searchInput set) ↔
      (∀ s ∈ set, accepts unset searchInput s = true → isPart s = false → '$' ∉ s) ∧
        ∀ s ∈ set, ∀ line ∈ s.splitOn '$', accepts unset searchInput line = true → isPart line = false →
          line ∈ set := by
  have hmem : ∀ line, line ∈ getMatchesInSet unset searchInput set ↔
      (∃ s ∈ set, line ∈ s.splitOn '$') ∧ accepts unset searchInput line = true ∧ isPart line = false := by
    intro line
    rw [getMatchesInSet, getMatchesInStream, getlines_set, List.mem_filter, List.mem_flatMap]
    simp
  constructor
  · rintro ⟨honly, hall⟩
    constructor
    · intro s hs haccepts hpart
      obtain ⟨⟨s', -, hline⟩, -⟩ := (hmem s).mp (hall s hs haccepts hpart)
      exact not_mem_of_mem_splitOn hline
    · intro s hs line hline haccepts hpart
      exact honly line ((hmem line).mpr ⟨⟨s, hs, hline⟩, haccepts, hpart⟩)
  · rintro ⟨hdollar, hlines⟩
    constructor
    · intro line hline
      obtain ⟨⟨s, hs, hsplit⟩, haccepts, hpart⟩ := (hmem line).mp hline
      exact hlines s hs line hsplit haccepts hpart
    · intro s hs haccepts hpart
      refine (hmem s).mpr ⟨⟨s, hs, ?_⟩, haccepts, hpart⟩
      rw [List.splitOn_eq_singleton (hdollar s hs haccepts hpart)]
      exact List.mem_singleton_self s

/-- The pattern `*` in the set of `a$b`. -/
theorem member_comes_back_in_parts :
    getMatchesInSet (true, true) ['*'] ["a$b".toList] = ["a".toList, "b".toList] ∧
      accepts (true, true) ['*'] "a$b".toList = true := by
  decide +kernel

end ProbeMatcher
