import Mathlib.Data.List.TakeWhile

/-! # Text that is read word by word

Formatted extraction from a stream of characters: white space is skipped, then the longest run of
admissible characters is taken, and an extraction that finds none fails. What a reader accepts is
told by the shape of the text that it has consumed.
-/
namespace Pbft
set_option autoImplicit false

abbrev Scanner (α : Type) := StateT (List Char) Option α

/-- White space in the "C" locale. -/
def isSpace (c : Char) : Bool :=
  c == ' ' || c == '\t' || c == '\n' || c == '\x0b' || c == '\x0c' || c == '\r'

/-- What can be extracted into a string. -/
@[ext] structure Token where
  text : String
  nonempty : text ≠ ""
  solid : ∀ c ∈ text.toList, isSpace c = false
deriving DecidableEq

def Blank (cs : List Char) : Prop := ∀ c ∈ cs, isSpace c = true

/-- The text t does not continue a run of characters in p. -/
def Ends (p : Char → Bool) (t : List Char) : Prop := ∀ c ∈ t.head?, p c = false

inductive Sign where
  | absent
  | plus
  | minus
deriving DecidableEq

def Sign.text : Sign → List Char
  | .absent => []
  | .plus => ['+']
  | .minus => ['-']

/-- A number with a minus is negated in the unsigned type and not refused. -/
def Sign.apply : Sign → UInt32 → UInt32
  | .absent, v | .plus, v => v
  | .minus, v => -v

def Token.of (text : String) (h : text ≠ "" ∧ text.toList.all (!isSpace ·) = true) : Token where
  text := text
  nonempty := h.1
  solid c hc := by simpa using List.all_eq_true.mp h.2 c hc

@[simp] theorem Token.text_of (text : String) (h : text ≠ "" ∧ text.toList.all (!isSpace ·) = true) :
    (Token.of text h).text = text :=
  rfl

theorem Token.append_ne_nil (w : Token) (t : List Char) : w.text.toList ++ t ≠ [] := fun h =>
  w.nonempty (String.toList_eq_nil_iff.mp (List.append_eq_nil_iff.mp h).1)

/-- The digits of a number that fits. -/
structure Numeral where
  digits : List Char
  nonempty : digits ≠ []
  decimal : ∀ c ∈ digits, c.isDigit = true
  bound : Nat.ofDigitChars 10 digits 0 < UInt32.size

namespace Numeral

def value (d : Numeral) : UInt32 := UInt32.ofNat (Nat.ofDigitChars 10 d.digits 0)

/-- The digits of v without leading zeros. -/
def of (v : UInt32) : Numeral where
  digits := Nat.toDigits 10 v.toNat
  nonempty := Nat.toDigits_ne_nil
  decimal c hc := Nat.isDigit_of_mem_toDigits (by decide) (by decide) hc
  bound := by
    rw [Nat.ofDigitChars_ten_toDigits]
    exact v.toNat_lt

theorem value_of (v : UInt32) : (of v).value = v := by
  rw [value, of, Nat.ofDigitChars_ten_toDigits, UInt32.ofNat_toNat]

theorem append_ne_nil (d : Numeral) (s : Sign) (t : List Char) : s.text ++ (d.digits ++ t) ≠ [] := fun h =>
  d.nonempty (List.append_eq_nil_iff.mp (List.append_eq_nil_iff.mp h).2).1

end Numeral

namespace Scanner
variable {cs t : List Char}

@[simp] theorem ends_nil (p : Char → Bool) : Ends p [] := by simp [Ends]

theorem ends_dropWhile (p : Char → Bool) (cs : List Char) : Ends p (cs.dropWhile p) := by
  intro c hc
  have hNot := List.head?_dropWhile_not p cs
  rw [Option.mem_def.mp hc] at hNot
  exact hNot

theorem longest_run {p : Char → Bool} {w : List Char} (hw : ∀ c ∈ w, p c = true) (ht : Ends p t) :
    (w ++ t).takeWhile p = w ∧ (w ++ t).dropWhile p = t := by
  rw [List.takeWhile_append_of_pos hw, List.dropWhile_append_of_pos hw]
  cases t with
  | nil => simp
  | cons c t =>
    have hc : p c = false := ht c rfl
    simp [hc]

theorem blank_ne_nil {b : List Char} (h : Ends (!isSpace ·) (b ++ t)) (ht : Ends isSpace t) (hSome : t ≠ []) :
    b ≠ [] := by
  rintro rfl
  obtain ⟨c, t, rfl⟩ := List.exists_cons_of_ne_nil hSome
  have hSpace : (!isSpace c) = false := h c rfl
  rw [ht c rfl] at hSpace
  cases hSpace

theorem ends_word_of_blank {b : List Char} (hb : Blank b) (hSome : b ≠ []) : Ends (!isSpace ·) (b ++ t) := by
  obtain ⟨c, b, rfl⟩ := List.exists_cons_of_ne_nil hSome
  intro a ha
  cases ha
  simp [hb c (by simp)]

def word : Scanner Token := fun cs =>
  let w := (cs.dropWhile isSpace).takeWhile (!isSpace ·)
  if h : w = [] then none
  else some (⟨String.ofList w, fun hEmpty => h (by simpa using congrArg String.toList hEmpty), fun c hc => by
    rw [String.toList_ofList] at hc
    simpa using List.mem_takeWhile_imp hc⟩, (cs.dropWhile isSpace).dropWhile (!isSpace ·))

theorem ends_token (w : Token) (t : List Char) : Ends isSpace (w.text.toList ++ t) := by
  intro c hc
  cases hText : w.text.toList with
  | nil => exact absurd (String.toList_eq_nil_iff.mp hText) w.nonempty
  | cons a as =>
    rw [hText] at hc
    cases hc
    exact w.solid c (by simp [hText])

theorem word_append (b : List Char) (w : Token) (hb : Blank b) (ht : Ends (!isSpace ·) t) :
    word.run (b ++ (w.text.toList ++ t)) = some (w, t) := by
  obtain ⟨-, hSkip⟩ := longest_run hb (ends_token w t)
  obtain ⟨hTake, hDrop⟩ := longest_run (p := (!isSpace ·)) (fun c hc => by simpa using w.solid c hc) ht
  have hSome : w.text.toList ≠ [] := fun h => w.nonempty (String.toList_eq_nil_iff.mp h)
  simp only [StateT.run, word, hSkip, hTake, hDrop, dif_neg hSome, String.ofList_toList]

/-- A word is what stands between two stretches of white space. -/
theorem word_iff {w : Token} :
    word.run cs = some (w, t) ↔ ∃ b, Blank b ∧ Ends (!isSpace ·) t ∧ cs = b ++ (w.text.toList ++ t) := by
  constructor
  · intro h
    simp only [StateT.run, word] at h
    split at h
    · cases h
    · cases h
      refine ⟨cs.takeWhile isSpace, fun c => List.mem_takeWhile_imp, ends_dropWhile _ _, ?_⟩
      rw [String.toList_ofList, List.takeWhile_append_dropWhile, List.takeWhile_append_dropWhile]
  · rintro ⟨b, hb, ht, rfl⟩
    exact word_append b w hb ht

def sign : List Char → Sign × List Char
  | '+' :: cs => (.plus, cs)
  | '-' :: cs => (.minus, cs)
  | cs => (.absent, cs)

/-- An unsigned decimal number. One that does not fit into 32 bits fails, and so does a lone sign. -/
def unsigned : Scanner UInt32 := fun cs =>
  let (s, cs) := sign (cs.dropWhile isSpace)
  let digits := cs.takeWhile Char.isDigit
  let v := Nat.ofDigitChars 10 digits 0
  if digits ≠ [] ∧ v < UInt32.size then some (s.apply (UInt32.ofNat v), cs.dropWhile Char.isDigit) else none

theorem sign_text (s : Sign) (hs : ∀ c ∈ cs.head?, c ≠ '+' ∧ c ≠ '-') : sign (s.text ++ cs) = (s, cs) := by
  cases s with
  | plus | minus => rfl
  | absent =>
    change sign cs = _
    fun_cases sign cs with
    | case1 cs => exact absurd rfl (hs '+' rfl).1
    | case2 cs => exact absurd rfl (hs '-' rfl).2
    | case3 => rfl

theorem text_sign (cs : List Char) : (sign cs).1.text ++ (sign cs).2 = cs := by
  fun_cases sign cs with
  | case1 cs | case2 cs => rfl
  | case3 => rfl

theorem isSpace_of_isDigit {c : Char} (hc : c.isDigit = true) : isSpace c = false := by
  rw [Bool.eq_false_iff]
  intro hSpace
  simp only [isSpace, Bool.or_eq_true, beq_iff_eq] at hSpace
  rcases hSpace with ((((rfl | rfl) | rfl) | rfl) | rfl) | rfl <;> exact absurd hc (by decide)

theorem not_sign_of_isDigit {c : Char} (hc : c.isDigit = true) : c ≠ '+' ∧ c ≠ '-' := by
  constructor
  · rintro rfl
    exact absurd hc (by decide)
  · rintro rfl
    exact absurd hc (by decide)

theorem head?_digits (d : Numeral) {c : Char} (hc : c ∈ (d.digits ++ t).head?) : c.isDigit = true := by
  cases hDigits : d.digits with
  | nil => exact absurd hDigits d.nonempty
  | cons a as =>
    rw [hDigits] at hc
    cases hc
    exact d.decimal c (by simp [hDigits])

theorem ends_sign (s : Sign) (d : Numeral) (t : List Char) : Ends isSpace (s.text ++ (d.digits ++ t)) := by
  intro c hc
  cases s with
  | plus | minus =>
    cases hc
    rfl
  | absent => exact isSpace_of_isDigit (head?_digits d hc)

theorem unsigned_append (b : List Char) (s : Sign) (d : Numeral) (hb : Blank b) (ht : Ends Char.isDigit t) :
    unsigned.run (b ++ (s.text ++ (d.digits ++ t))) = some (s.apply d.value, t) := by
  obtain ⟨-, hSkip⟩ := longest_run hb (ends_sign s d t)
  obtain ⟨hTake, hDrop⟩ := longest_run d.decimal ht
  have hSign : sign (s.text ++ (d.digits ++ t)) = (s, d.digits ++ t) :=
    sign_text s fun c hc => not_sign_of_isDigit (head?_digits d hc)
  simp only [StateT.run, unsigned, hSkip, hSign, hTake, hDrop]
  exact if_pos ⟨d.nonempty, d.bound⟩

/-- A number is white space, perhaps a sign, and all the digits that follow. -/
theorem unsigned_iff {v : UInt32} : unsigned.run cs = some (v, t) ↔ ∃ (b : List Char) (s : Sign) (d : Numeral),
    Blank b ∧ Ends Char.isDigit t ∧ v = s.apply d.value ∧ cs = b ++ (s.text ++ (d.digits ++ t)) := by
  constructor
  · intro h
    simp only [StateT.run, unsigned] at h
    split at h
    · rename_i hDigits
      cases h
      refine ⟨cs.takeWhile isSpace, _, ⟨_, hDigits.1, fun c => List.mem_takeWhile_imp, hDigits.2⟩,
        fun c => List.mem_takeWhile_imp, ends_dropWhile _ _, rfl, ?_⟩
      rw [List.takeWhile_append_dropWhile, text_sign, List.takeWhile_append_dropWhile]
    · cases h
  · rintro ⟨b, s, d, hb, ht, rfl, rfl⟩
    exact unsigned_append b s d hb ht

end Scanner
end Pbft
