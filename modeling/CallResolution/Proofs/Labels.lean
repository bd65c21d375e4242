import CallResolution.Proofs.DotText
import Mathlib.Algebra.Ring.Parity
import Mathlib.Data.List.DropRight
import Mathlib.Data.Set.Function

/-!
Labels between their quotes. A backslash masks the character after it, so whether a quote closes a
label depends on the parity of the backslashes before it. Escaping keeps that parity right in every
part of a label, and the label can be read back from it.
-/

namespace CallResolution.Dot

/-- Reads an escaped label back. A backslash before any other character stands for
itself. -/
def unescapeChars : List Char → List Char
  | '\\' :: '\\' :: rest => '\\' :: unescapeChars rest
  | '\\' :: '"' :: rest => '"' :: unescapeChars rest
  | '\\' :: 'n' :: rest => '\n' :: unescapeChars rest
  | '\\' :: '<' :: rest => '<' :: unescapeChars rest
  | '\\' :: '>' :: rest => '>' :: unescapeChars rest
  | char :: rest => char :: unescapeChars rest
  | [] => []

def backslashRun (chars : List Char) : Nat :=
  (chars.rtakeWhile (· == '\\')).length

/-- Every quote and angle bracket is masked, and what follows the text is not. -/
structure Masked (chars : List Char) : Prop where
  marks : ∀ mark ∈ ['"', '<', '>'], ∀ before after,
    chars = before ++ mark :: after → Odd (backslashRun before)
  settled : Even (backslashRun chars)

def upToQuote? : List Char → Option (List Char × List Char)
  | [] => none
  | '"' :: rest => some ([], rest)
  | '\\' :: masked :: rest => (upToQuote? rest).map (Prod.map ('\\' :: masked :: ·) id)
  | char :: rest => (upToQuote? rest).map (Prod.map (char :: ·) id)

def readQuoted? : List Char → Option (List Char × List Char)
  | '"' :: rest => upToQuote? rest
  | _ => none

variable {left right chars : List Char} {char : Char}

@[simp]
theorem backslashRun_nil : backslashRun [] = 0 := rfl

theorem backslashRun_concat (chars : List Char) (char : Char) :
    backslashRun (chars ++ [char]) = if char = '\\' then backslashRun chars + 1 else 0 := by
  by_cases backslash : char = '\\'
  · simp [backslashRun, backslash]
  · simp [backslashRun, backslash]

theorem backslashRun_singleton (other : char ≠ '\\') : backslashRun [char] = 0 := by
  simpa [other] using backslashRun_concat [] char

theorem even_backslashRun_pair (letter : Char) : Even (backslashRun ['\\', letter]) := by
  have opening : backslashRun ['\\'] = 1 := rfl
  have pair := backslashRun_concat ['\\'] letter
  rw [List.singleton_append, opening] at pair
  rw [pair]
  split
  · exact ⟨1, rfl⟩
  · exact ⟨0, rfl⟩

/-- A text that masks nothing after it leaves the parity of what follows alone. -/
theorem even_backslashRun_append (settled : Even (backslashRun left)) (right : List Char) :
    Even (backslashRun (left ++ right)) ↔ Even (backslashRun right) := by
  induction right using List.reverseRecOn with
  | nil => simpa using settled
  | append_singleton right char ih =>
      rw [← List.append_assoc, backslashRun_concat, backslashRun_concat]
      split
      · rw [Nat.even_add_one, Nat.even_add_one, ih]
      · rfl

theorem odd_backslashRun_append (settled : Even (backslashRun left)) (right : List Char) :
    Odd (backslashRun (left ++ right)) ↔ Odd (backslashRun right) := by
  rw [← Nat.not_even_iff_odd, ← Nat.not_even_iff_odd, even_backslashRun_append settled]

namespace Masked

theorem nil : Masked [] :=
  ⟨by simp, ⟨0, rfl⟩⟩

theorem append (leftMasked : Masked left) (rightMasked : Masked right) :
    Masked (left ++ right) := by
  refine ⟨?_, (even_backslashRun_append leftMasked.settled right).mpr rightMasked.settled⟩
  intro mark listed before after same
  rcases List.append_eq_append_iff.mp same with ⟨inside, rfl, rest⟩ | ⟨inside, whole, rest⟩
  · exact (odd_backslashRun_append leftMasked.settled inside).mpr
      (rightMasked.marks mark listed inside after rest)
  · cases inside with
    | nil =>
        exact absurd (rightMasked.marks mark listed [] after rest.symm) (by simp)
    | cons first inside =>
        obtain ⟨rfl, _⟩ := List.cons.inj rest
        exact leftMasked.marks mark listed before inside whole

theorem of_append (settled : Even (backslashRun left)) (masked : Masked (left ++ right)) :
    Masked right := by
  refine ⟨?_, (even_backslashRun_append settled right).mp masked.settled⟩
  intro mark listed before after same
  rw [← odd_backslashRun_append settled before]
  exact masked.marks mark listed (left ++ before) after (by rw [same, List.append_assoc])

theorem pair (letter : Char) : Masked ['\\', letter] := by
  refine ⟨?_, even_backslashRun_pair letter⟩
  intro mark listed before after same
  rcases before with _ | ⟨first, _ | ⟨second, before⟩⟩
  · obtain ⟨rfl, _⟩ := List.cons.inj same
    simp at listed
  · obtain ⟨rfl, _⟩ := List.cons.inj same
    exact ⟨0, rfl⟩
  · simp at same

theorem singleton (plain : char ∉ ['\\', '"', '\n', '\r', '<', '>']) : Masked [char] := by
  simp only [List.mem_cons, List.not_mem_nil, or_false, not_or] at plain
  obtain ⟨backslash, quote, _, _, less, greater⟩ := plain
  refine ⟨?_, ⟨0, backslashRun_singleton backslash⟩⟩
  intro mark listed before after same
  obtain ⟨_, rfl, _⟩ : before = [] ∧ mark = char ∧ after = [] := by
    simpa [List.singleton_eq_append_iff] using same
  simp [quote, less, greater] at listed

theorem upToQuote?_append (masked : Masked chars) (rest : List Char) :
    upToQuote? (chars ++ '"' :: rest) = some (chars, rest) := by
  induction chars using upToQuote?.induct with
  | case1 => rfl
  | case2 tail => exact absurd (masked.marks '"' (by simp) [] tail rfl) (by simp)
  | case3 letter tail ih =>
      have after : Masked tail := masked.of_append (even_backslashRun_pair letter)
      simp [upToQuote?, ih after]
  | case4 char tail notQuote notPair ih =>
      have other : char ≠ '\\' := by
        rintro rfl
        cases tail with
        | nil =>
            -- a lone backslash at the end would mask the closing quote
            exact absurd masked.settled (by decide)
        | cons letter tail => exact notPair letter tail rfl rfl
      have opening : Even (backslashRun [char]) := ⟨0, backslashRun_singleton other⟩
      have after : Masked tail := masked.of_append opening
      simp [upToQuote?, other, ih after]

end Masked

theorem masked_escapeChar (char : Char) : Masked (escapeChar char) := by
  rcases escapeChar_cases char with ⟨_, dropped⟩ | ⟨_, letter, _, pair⟩ | ⟨plain, same⟩
  · rw [dropped]
    exact .nil
  · rw [pair]
    exact .pair letter
  · rw [same]
    exact .singleton plain

theorem masked_escapeChars (chars : List Char) : Masked (escapeChars chars) :=
  escapeChars_closed .nil .append masked_escapeChar chars

theorem return_not_mem_escapeChars (chars : List Char) : '\r' ∉ escapeChars chars := by
  intro member
  obtain ⟨char, _, inside⟩ := List.mem_flatMap.mp member
  have special : ∀ letter ∈ ['\\', '"', 'n', '<', '>'], letter ≠ '\r' := by simp
  rcases escapeChar_cases char with ⟨_, dropped⟩ | ⟨_, letter, listed, pair⟩ | ⟨plain, same⟩
  · simp [dropped] at inside
  · simp [pair, (special letter listed).symm] at inside
  · rw [same, List.mem_singleton] at inside
    simp [← inside] at plain

theorem unescapeChars_escapeChar_append (char : Char) (rest : List Char) :
    unescapeChars (escapeChar char ++ rest) =
      [char].filter (· ≠ '\r') ++ unescapeChars rest := by
  unfold escapeChar
  split
  case h_7 backslash _ _ carriage _ _ =>
    have other : char ≠ '\\' := backslash
    have kept : char ≠ '\r' := carriage
    simp [unescapeChars, other, kept]
  all_goals simp [unescapeChars]

theorem unescapeChars_escapeChars (chars : List Char) :
    unescapeChars (escapeChars chars) = chars.filter (· ≠ '\r') := by
  induction chars with
  | nil => rfl
  | cons char chars ih =>
      rw [escapeChars, List.flatMap_cons, unescapeChars_escapeChar_append, ← escapeChars, ih,
        ← List.filter_append, List.singleton_append]

theorem readQuoted?_quoted (text : String) (rest : List Char) :
    readQuoted? ((quoted text).toList ++ rest) = some ((escapeLabel text).toList, rest) := by
  have split : (quoted text).toList ++ rest = '"' :: ((escapeLabel text).toList ++ '"' :: rest) := by
    simp [quoted]
  rw [split, readQuoted?, toList_escapeLabel]
  exact (masked_escapeChars text.toList).upToQuote?_append rest

theorem escapeLabel_injOn : Set.InjOn escapeLabel {text | '\r' ∉ text.toList} := by
  intro first firstClean second secondClean same
  have kept {text : String} (clean : '\r' ∉ text.toList) :
      unescapeChars (escapeLabel text).toList = text.toList := by
    rw [toList_escapeLabel, unescapeChars_escapeChars, List.filter_eq_self]
    intro char member
    simpa using ne_of_mem_of_not_mem member clean
  apply String.toList_injective
  rw [← kept firstClean, ← kept secondClean, same]

/-- Labels can be read back but for carriage returns, and their own quotes close them. -/
theorem labels_legible_and_closed :
    Set.InjOn escapeLabel {text | '\r' ∉ text.toList} ∧
      ∀ text : String,
        unescapeChars (escapeLabel text).toList = text.toList.filter (· ≠ '\r') ∧
        '\n' ∉ (escapeLabel text).toList ∧ '\r' ∉ (escapeLabel text).toList ∧
        Masked (escapeLabel text).toList ∧
        ∀ rest, readQuoted? ((quoted text).toList ++ rest) =
          some ((escapeLabel text).toList, rest) := by
  refine ⟨escapeLabel_injOn, fun text => ?_⟩
  refine ⟨?_, ?_, ?_, ?_, readQuoted?_quoted text⟩
  all_goals rw [toList_escapeLabel]
  · exact unescapeChars_escapeChars text.toList
  · exact (quiet_escapeChars text.toList).oneLine
  · exact return_not_mem_escapeChars text.toList
  · exact masked_escapeChars text.toList

theorem labels_legible_and_closed_backslashes :
    escapeLabel "\\n" ≠ escapeLabel "\n" ∧
      (let text := "\\n\"\r\n<\\"
      unescapeChars (escapeLabel text).toList = "\\n\"\n<\\".toList ∧
      Odd (backslashRun "\\\\n\\".toList) ∧
      readQuoted? ((quoted text).toList ++ "];".toList) =
        some ("\\\\n\\\"\\n\\<\\\\".toList, "];".toList)) := by
  obtain ⟨injective, readable⟩ := labels_legible_and_closed
  obtain ⟨decoded, _, _, masked, closed⟩ := readable "\\n\"\r\n<\\"
  refine ⟨?_, decoded.trans (by decide), ?_, (closed "];".toList).trans (by decide)⟩
  · intro same
    exact absurd (injective (by decide) (by decide) same) (by decide)
  · exact masked.marks '"' (by simp) _ "\\n\\<\\\\".toList (by decide)

end CallResolution.Dot
