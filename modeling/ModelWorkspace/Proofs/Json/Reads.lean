import Mathlib
import ModelWorkspace.Json.Printer
import ModelWorkspace.Json.Scalar

/-!
# Reading what was written

`Reads follows r written a` says that the reader `r` gives `a` for the text `written`,
wherever this stands and whatever comes behind it, as long as that has the property
`follows`; the reader takes `written` and leaves what comes behind.  Readers that only look
ahead take nothing, and their value depends on what follows.

Readers in a row read what is written in a row (`Reads.bind`).  What the printer makes of a
string or a number is read as that string or number.
-/

namespace ModelWorkspace
namespace Json

/-- A reader gives a value for a text in front of anything that has a property, and takes
the text. -/
def Reads {α : Type} (follows : List Char → Prop) (r : Reader α) (written : List Char) (a : α) :
    Prop :=
  ∀ rest place size, follows rest → (written ++ rest).length ≤ size →
    ∃ place', r.start ⟨written ++ rest, place, size⟩ = (.ok a, ⟨rest, place', size⟩)

/-- Anything may follow. -/
def Anything : List Char → Prop :=
  fun _ => True

/-- A character follows. -/
def StartsWith (c : Char) (rest : List Char) : Prop :=
  rest.head? = some c

/-- A value ends here: if anything follows, it is a comma or a closing bracket. -/
def Delimited (rest : List Char) : Prop :=
  ∀ c, rest.head? = some c → c = ',' ∨ c = ']' ∨ c = '\x7d'

namespace Reader

variable {α β : Type}

/-- Behind a value the next reader goes on. -/
theorem start_bind_of_ok {r : Reader α} {cur cur' : Cursor} {a : α}
    (h : r.start cur = (.ok a, cur')) (f : α → Reader β) :
    (r >>= f).start cur = (f a).start cur' := by
  have hrun : r.run.run cur = (.ok a, cur') := h
  unfold start
  rw [ExceptT.run_bind, StateT.run_bind, hrun]
  rfl

end Reader

namespace Reads

open Reader

variable {α β : Type} {P Q : List Char → Prop} {r : Reader α} {f : α → Reader β}
  {w v : List Char} {a : α} {b : β}

theorem mono (h : Reads P r w a) (himp : ∀ rest, Q rest → P rest) :
    Reads Q r w a :=
  fun rest place size hrest => h rest place size (himp rest hrest)

theorem pure (a : α) : Reads P (Pure.pure a : Reader α) [] a :=
  fun _ place _ _ _ => ⟨place, rfl⟩

/-- Readers in a row read what is written in a row. -/
theorem bind (h : Reads P r w a) (hf : Reads Q (f a) v b)
    (hfollows : ∀ rest, Q rest → P (v ++ rest)) :
    Reads Q (r >>= f) (w ++ v) b := by
  intro rest place size hrest hsize
  rw [List.append_assoc] at hsize ⊢
  obtain ⟨place', hfirst⟩ := h (v ++ rest) place size (hfollows rest hrest) hsize
  have hshorter : (v ++ rest).length ≤ size := by
    rw [List.length_append] at hsize
    omega
  obtain ⟨place'', hsecond⟩ := hf rest place' size hrest hshorter
  exact ⟨place'', (start_bind_of_ok hfirst f).trans hsecond⟩

/-- What may stand in front of anything may stand in front of what is read next. -/
theorem andThen (h : Reads Anything r w a) (hf : Reads Q (f a) v b) :
    Reads Q (r >>= f) (w ++ v) b :=
  h.bind hf fun _ _ => trivial

/-- A reader that takes nothing more. -/
theorem bind_nil (h : Reads P r w a) (hf : Reads P (f a) [] b) : Reads P (r >>= f) w b := by
  have hread := h.bind hf fun _ hrest => hrest
  rw [List.append_nil] at hread
  exact hread

/-- A value that is made of what was read. -/
theorem map (h : Reads P r w a) (g : α → β) :
    Reads P (r >>= fun x => Pure.pure (g x)) w (g a) :=
  h.bind_nil (Reads.pure (g a))

/-- There are more rounds than characters to be read. -/
theorem roundLimit {f : Nat → Reader β}
    (h : ∀ rounds, w.length < rounds → Reads P (f rounds) w b) :
    Reads P (Reader.roundLimit >>= f) w b := by
  intro rest place size hrest hsize
  have hrounds : w.length < size + 1 := by
    rw [List.length_append] at hsize
    omega
  exact h (size + 1) hrounds rest place size hrest hsize

end Reads

/-! ## Characters and words -/

open Reader

variable {c : Char} {cs : List Char}

theorem reads_peek (c : Char) : Reads (StartsWith c) peek? [] (some c) := by
  intro rest place size hrest _
  refine ⟨place, ?_⟩
  show (Except.ok rest.head?, _) = _
  rw [show rest.head? = some c from hrest]
  rfl

theorem startsWith_cons (c : Char) (cs : List Char) : StartsWith c (c :: cs) := rfl

/-- A reader that goes on with the next character. -/
theorem Reads.afterPeek {β : Type} {P : List Char → Prop} {f : Option Char → Reader β} {b : β}
    (h : Reads P (f (some c)) (c :: cs) b) : Reads P (peek? >>= f) (c :: cs) b :=
  (reads_peek c).bind h fun rest _ => startsWith_cons c (cs ++ rest)

theorem reads_skipChar (c : Char) : Reads Anything skipChar [c] () :=
  fun _ _ _ _ _ => ⟨_, rfl⟩

/-- The next character that is not blank is seen in front of what is not blank. -/
theorem reads_peekToken (hc : isSpace c = false) :
    Reads (StartsWith c) peekToken [] (some c) := by
  intro rest place size hrest _
  obtain ⟨cs, rfl⟩ : ∃ cs, rest = c :: cs := by
    cases rest with
    | nil => cases hrest
    | cons d ds =>
        cases hrest
        exact ⟨ds, rfl⟩
  refine ⟨place, ?_⟩
  show (Except.ok ((c :: cs).dropWhile isSpace).head?, (⟨(c :: cs).dropWhile isSpace,
    placeAfterSpaces place (c :: cs), size⟩ : Cursor)) = _
  have hdrop : (c :: cs).dropWhile isSpace = c :: cs := by
    rw [List.dropWhile_cons, hc]
    rfl
  have hplace : placeAfterSpaces place (c :: cs) = place := by
    rw [placeAfterSpaces, hc]
    rfl
  rw [hdrop, hplace]
  rfl

/-- A reader that goes on with the next character that is not blank. -/
theorem Reads.afterPeekToken {β : Type} {P : List Char → Prop} {f : Option Char → Reader β}
    {b : β} (hc : isSpace c = false) (h : Reads P (f (some c)) (c :: cs) b) :
    Reads P (peekToken >>= f) (c :: cs) b :=
  (reads_peekToken hc).bind h fun rest _ => startsWith_cons c (cs ++ rest)

theorem reads_word (cs : List Char) : Reads Anything (word cs) cs () := by
  induction cs with
  | nil => exact Reads.pure ()
  | cons c cs ih =>
      unfold word
      have hrest := (reads_skipChar c).andThen (f := fun _ => word cs) ih
      refine Reads.afterPeek ?_
      dsimp only
      rw [if_pos rfl]
      exact hrest

/-! ## Strings -/

theorem utf8Size_hexDigit {n : Nat} (h : n < 16) : (hexDigit n).utf8Size = 1 := by
  have hall : ∀ n < 16, (hexDigit n).utf8Size = 1 := by decide
  exact hall n h

/-- The four digits that a control character is written with. -/
theorem hexNumber?_control {n : Nat} (h : n < 32) :
    hexNumber? ['0', '0', hexDigit (n / 16), hexDigit (n % 16)] = some n := by
  have hall : ∀ n < 32, hexNumber? ['0', '0', hexDigit (n / 16), hexDigit (n % 16)] = some n := by
    decide
  exact hall n h

/-- Four digits of one byte each are read as the number that they write. -/
theorem reads_hexDigits {a b c d : Char} {n : Nat} (hnumber : hexNumber? [a, b, c, d] = some n)
    (hwidth : byteWidth [a, b, c, d] = 4) : Reads Anything hexDigits [a, b, c, d] n := by
  intro rest place size _ _
  have htake : ([a, b, c, d] ++ rest).take 4 = [a, b, c, d] := rfl
  unfold hexDigits
  have hget : (get : Reader Cursor).start ⟨[a, b, c, d] ++ rest, place, size⟩ =
      (.ok ⟨[a, b, c, d] ++ rest, place, size⟩, ⟨[a, b, c, d] ++ rest, place, size⟩) := rfl
  rw [start_bind_of_ok hget]
  dsimp only
  rw [htake, hwidth, if_neg (Nat.lt_irrefl 4), hnumber]
  exact ⟨_, rfl⟩

/-- The escape by number that a control character is written with. -/
theorem reads_numericEscape (hc : c.toNat < 0x20) :
    Reads Anything numericEscape ['0', '0', hexDigit (c.toNat / 16), hexDigit (c.toNat % 16)]
      c := by
  have hwidth : byteWidth ['0', '0', hexDigit (c.toNat / 16), hexDigit (c.toNat % 16)] = 4 := by
    simp only [byteWidth_cons, byteWidth_nil]
    rw [utf8Size_hexDigit (by omega), utf8Size_hexDigit (by omega)]
    rfl
  have hlow : isLowSurrogate c.toNat = false := by
    unfold isLowSurrogate
    rw [Bool.and_eq_false_iff]
    exact Or.inl (decide_eq_false (by omega))
  have hhigh : isHighSurrogate c.toNat = false := by
    unfold isHighSurrogate
    rw [Bool.and_eq_false_iff]
    exact Or.inl (decide_eq_false (by omega))
  refine (reads_hexDigits (hexNumber?_control hc) hwidth).bind_nil ?_
  rw [hlow, if_neg Bool.false_ne_true, hhigh, if_neg Bool.false_ne_true, Char.ofNat_toNat]
  exact Reads.pure c

/-- An escape by a letter. -/
theorem reads_letterEscape {letter : Char} (hletter : letter ≠ 'u')
    (hmeant : escaped? letter = some c) : Reads Anything escape [letter] c := by
  refine Reads.afterPeek ?_
  split
  · rename_i heq
    cases heq
  · rename_i heq
    cases heq
    exact absurd rfl hletter
  · rename_i found _ heq
    cases heq
    rw [hmeant]
    exact (reads_skipChar letter).map fun _ => c

/-- A character is written by a letter that stands for it, by its number, or as itself. -/
theorem escapeChar_cases (c : Char) :
    (∃ letter, letter ≠ 'u' ∧ escaped? letter = some c ∧ escapeChar c = ['\\', letter]) ∨
      (c.toNat < 0x20 ∧ escapeChar c =
        ['\\', 'u', '0', '0', hexDigit (c.toNat / 16), hexDigit (c.toNat % 16)]) ∨
      (c ≠ '"' ∧ c ≠ '\\' ∧ ¬ c.toNat < 0x20 ∧ escapeChar c = [c]) := by
  by_cases hletter : c ∈ ['"', '\\', '\x08', '\x0c', '\n', '\r', '\t']
  · simp only [List.mem_cons, List.not_mem_nil, or_false] at hletter
    left
    rcases hletter with rfl | rfl | rfl | rfl | rfl | rfl | rfl
    · exact ⟨'"', by decide, rfl, rfl⟩
    · exact ⟨'\\', by decide, rfl, rfl⟩
    · exact ⟨'b', by decide, rfl, rfl⟩
    · exact ⟨'f', by decide, rfl, rfl⟩
    · exact ⟨'n', by decide, rfl, rfl⟩
    · exact ⟨'r', by decide, rfl, rfl⟩
    · exact ⟨'t', by decide, rfl, rfl⟩
  · simp only [List.mem_cons, List.not_mem_nil, or_false, not_or] at hletter
    obtain ⟨hquote, hbackslash, hb, hf, hn, hr, ht⟩ := hletter
    have hwritten : escapeChar c = if c.toNat < 0x20 then
        ['\\', 'u', '0', '0', hexDigit (c.toNat / 16), hexDigit (c.toNat % 16)] else [c] := by
      unfold escapeChar
      rw [if_neg hquote, if_neg hbackslash, if_neg hb, if_neg hf, if_neg hn, if_neg hr,
        if_neg ht]
    by_cases hcontrol : c.toNat < 0x20
    · exact Or.inr (Or.inl ⟨hcontrol, hwritten.trans (if_pos hcontrol)⟩)
    · exact Or.inr (Or.inr ⟨hquote, hbackslash, hcontrol, hwritten.trans (if_neg hcontrol)⟩)

/-- What a character is written as is read in one round. -/
theorem reads_stringRest_escapeChar {fuel : Nat} {follows : List Char → Prop}
    {written : List Char} (c : Char) (h : Reads follows (stringRest fuel) written cs) :
    Reads follows (stringRest (fuel + 1)) (escapeChar c ++ written) (c :: cs) := by
  -- behind a backslash stands what is read as the character
  have hescaped : ∀ {w : List Char}, Reads Anything escape w c →
      Reads follows (stringRest (fuel + 1)) ('\\' :: (w ++ written)) (c :: cs) := by
    intro w hread
    refine Reads.afterPeek ?_
    exact (reads_skipChar '\\').andThen (hread.andThen (h.map (c :: ·)))
  rcases escapeChar_cases c with ⟨letter, hne, hmeant, hwritten⟩ | ⟨hcontrol, hwritten⟩ |
    ⟨hquote, hbackslash, hcontrol, hwritten⟩
  · rw [hwritten]
    exact hescaped (reads_letterEscape hne hmeant)
  · rw [hwritten]
    refine hescaped (w := ['u', '0', '0', _, _]) ?_
    refine Reads.afterPeek ?_
    exact (reads_skipChar 'u').andThen (reads_numericEscape hcontrol)
  · rw [hwritten]
    refine Reads.afterPeek ?_
    split
    · rename_i heq
      cases heq
    · rename_i heq
      cases heq
      exact absurd rfl hquote
    · rename_i heq
      cases heq
      exact absurd rfl hbackslash
    · rename_i heq
      cases heq
      rw [if_neg hcontrol]
      exact (reads_skipChar c).andThen (h.map (c :: ·))

theorem reads_stringRest (cs : List Char) {fuel : Nat} (hfuel : cs.length < fuel) :
    Reads Anything (stringRest fuel) (cs.flatMap escapeChar ++ ['"']) cs := by
  induction cs generalizing fuel with
  | nil =>
      obtain ⟨fuel, rfl⟩ := Nat.exists_eq_add_of_lt hfuel
      refine Reads.afterPeek ?_
      exact (reads_skipChar '"').map fun _ => []
  | cons c cs ih =>
      cases fuel with
      | zero => cases hfuel
      | succ fuel =>
          rw [List.flatMap_cons, List.append_assoc]
          exact reads_stringRest_escapeChar c (ih (Nat.lt_of_succ_lt_succ hfuel))

theorem toList_quote (s : String) :
    (quote s).toList = '"' :: (s.toList.flatMap escapeChar ++ ['"']) := by
  unfold quote
  rw [String.toList_ofList]
  rfl

/-- No character is written as nothing. -/
theorem length_le_flatMap_escapeChar (cs : List Char) :
    cs.length ≤ (cs.flatMap escapeChar).length := by
  induction cs with
  | nil => exact Nat.le_refl 0
  | cons c cs ih =>
      have hpos : 0 < (escapeChar c).length := by
        rcases escapeChar_cases c with ⟨letter, -, -, hwritten⟩ | ⟨-, hwritten⟩ |
          ⟨-, -, -, hwritten⟩ <;> rw [hwritten] <;> exact Nat.succ_pos _
      rw [List.flatMap_cons, List.length_append, List.length_cons]
      omega

/-- A string that was written is read. -/
theorem reads_quoted (s : String) : Reads Anything quoted (quote s).toList s := by
  rw [toList_quote]
  refine (reads_skipChar '"').andThen (Reads.roundLimit fun rounds hrounds => ?_)
  have hlength : s.toList.length < rounds := by
    have hle := length_le_flatMap_escapeChar s.toList
    have hlen : (s.toList.flatMap escapeChar ++ ['"']).length < rounds := hrounds
    rw [List.length_append] at hlen
    omega
  have hread := (reads_stringRest s.toList hlength).map String.ofList
  rw [String.ofList_toList] at hread
  exact hread

/-! ## Numbers -/

theorem delimited_cons (h : c = ',' ∨ c = ']' ∨ c = '\x7d') : Delimited (c :: cs) := by
  intro first hfirst
  cases hfirst
  exact h

/-- What ends a value is no digit. -/
theorem takeWhile_isDigit_append (hdigits : ∀ c ∈ cs, c.isDigit = true) {rest : List Char}
    (hrest : Delimited rest) : (cs ++ rest).takeWhile Char.isDigit = cs := by
  rw [List.takeWhile_append_of_pos hdigits]
  cases rest with
  | nil => rw [List.takeWhile_nil, List.append_nil]
  | cons c rest =>
      have hnot : c.isDigit = false := by
        rcases hrest c rfl with rfl | rfl | rfl <;> rfl
      rw [List.takeWhile_cons, hnot, if_neg Bool.false_ne_true, List.append_nil]

theorem reads_digits (hdigits : ∀ c ∈ cs, c.isDigit = true) :
    Reads Delimited digits cs cs := by
  intro rest place size hrest _
  refine ⟨(Cursor.skip ⟨cs ++ rest, place, size⟩ cs.length).place, ?_⟩
  show (Except.ok ((cs ++ rest).takeWhile Char.isDigit),
    Cursor.skip ⟨cs ++ rest, place, size⟩ ((cs ++ rest).takeWhile Char.isDigit).length) = _
  rw [takeWhile_isDigit_append hdigits hrest]
  unfold Cursor.skip
  dsimp only
  rw [List.drop_left]

theorem le_ofDigitChars (cs : List Char) (n : Nat) : n ≤ Nat.ofDigitChars 10 cs n := by
  induction cs generalizing n with
  | nil => exact Nat.le_refl n
  | cons c cs ih =>
      rw [Nat.ofDigitChars_cons]
      have hstep := ih (10 * n + (c.toNat - '0'.toNat))
      omega

/-- Digits that write a number within the limit fit. -/
theorem fitting_eq {limit n : Nat} (h : Nat.ofDigitChars 10 cs n ≤ limit) :
    fitting limit n cs = (Nat.ofDigitChars 10 cs n, []) := by
  induction cs generalizing n with
  | nil => rfl
  | cons c cs ih =>
      rw [Nat.ofDigitChars_cons, Nat.mul_comm] at h ⊢
      have hle := le_ofDigitChars cs (n * 10 + (c.toNat - '0'.toNat))
      unfold fitting
      dsimp only
      rw [if_neg (by omega)]
      exact ih h

/-- The first digit of a number is zero only if the number is. -/
theorem head?_toDigits_ne_zero {n : Nat} (h : n ≠ 0) :
    (Nat.toDigits 10 n).head? ≠ some '0' := by
  induction n using Nat.strongRecOn with
  | ind n ih =>
      by_cases hsmall : n < 10
      · have hall : ∀ n < 10, n ≠ 0 → (Nat.toDigits 10 n).head? ≠ some '0' := by decide
        exact hall n hsmall h
      · rw [Nat.toDigits_of_base_le (by decide) (by omega),
          List.head?_append_of_ne_nil _ Nat.toDigits_ne_nil]
        exact ih (n / 10) (by omega) (by omega)

/-- What ends a value begins neither a fraction nor an exponent. -/
theorem reads_numberRest (n : Nat) : Reads Delimited (numberRest true n 0) [] (.natural n) := by
  intro rest place size hrest _
  refine ⟨place, ?_⟩
  have hpeek : (peek? : Reader (Option Char)).start ⟨[] ++ rest, place, size⟩ =
      (.ok rest.head?, ⟨rest, place, size⟩) := rfl
  unfold numberRest
  rw [start_bind_of_ok hpeek]
  cases rest with
  | nil => rfl
  | cons c cs =>
      rcases hrest c rfl with rfl | rfl | rfl <;> rfl

/-- A number that was written is read, if it is kept exactly. -/
theorem reads_number {n : Nat} (h : n ≤ maxNatural) :
    Reads Delimited (number true) (toString n).toList (.natural n) := by
  rw [Nat.toString_eq_repr, Nat.toList_repr]
  by_cases hzero : n = 0
  · subst hzero
    refine Reads.afterPeek ?_
    refine (reads_skipChar '0').andThen (v := []) ?_
    -- no digit follows the zero
    intro rest place size hrest hsize
    have hpeek : (peek? : Reader (Option Char)).start ⟨[] ++ rest, place, size⟩ =
        (.ok rest.head?, ⟨rest, place, size⟩) := rfl
    rw [start_bind_of_ok hpeek]
    have hread := reads_numberRest 0 rest place size hrest hsize
    cases rest with
    | nil => exact hread
    | cons c cs =>
        rcases hrest c rfl with rfl | rfl | rfl <;> exact hread
  · obtain ⟨first, others, hdigits⟩ := List.exists_cons_of_ne_nil
      (Nat.toDigits_ne_nil : Nat.toDigits 10 n ≠ [])
    have hall : ∀ c ∈ Nat.toDigits 10 n, c.isDigit = true :=
      fun c hc => Nat.isDigit_of_mem_toDigits (by decide) (by decide) hc
    have hfirst : first.isDigit = true := hall first (by rw [hdigits]; exact List.mem_cons_self)
    have hnonzero : first ≠ '0' := by
      intro heq
      refine head?_toDigits_ne_zero hzero ?_
      rw [hdigits, heq]
      rfl
    have hvalue : Nat.ofDigitChars 10 (Nat.toDigits 10 n) 0 = n :=
      Nat.ofDigitChars_toDigits (by decide) (by decide)
    have hfits : fitting maxNatural 0 (Nat.toDigits 10 n) = (n, []) := by
      rw [fitting_eq (by rw [hvalue]; exact h), hvalue]
    have hrest : Reads Delimited (Reader.digits >>= fun digits =>
        numberRest true (fitting maxNatural 0 digits).1 (fitting maxNatural 0 digits).2.length)
        (Nat.toDigits 10 n) (.natural n) := by
      refine (reads_digits hall).bind_nil ?_
      rw [hfits]
      exact reads_numberRest n
    rw [hdigits] at hrest ⊢
    refine Reads.afterPeek ?_
    dsimp only
    rw [hfirst, if_neg (by decide), if_neg hnonzero]
    exact hrest

end Json
end ModelWorkspace
