import PolicyRules.Text.Blank

/-!
# Texts

A text is the sequence of its code points, so every position and length counts code points. This
module holds the operations that know nothing of rules: trimming, squeezing runs of blanks, cutting
at separators, and the decimal text of a number.
-/

namespace PolicyRules

/-- A text, as the sequence of its code points. -/
abbrev Text := List Char

namespace Text

/-- The text without the blanks at its two ends. -/
def strip (t : Text) : Text :=
  ((t.dropWhile isBlank).reverse.dropWhile isBlank).reverse

/-- The text with every run of blanks replaced by one space. -/
def squeeze : Text → Text
  | [] => []
  | c :: cs =>
    if isBlank c then
      if cs.head?.any isBlank then squeeze cs else ' ' :: squeeze cs
    else c :: squeeze cs

/-- The text with runs of blanks squeezed and the ends trimmed. -/
def clean (t : Text) : Text := strip (squeeze t)

/-- The fields between separators. There is one more field than there are separators. -/
def fields (separates : Char → Bool) : Text → List Text
  | [] => [[]]
  | c :: cs =>
    if separates c then [] :: fields separates cs
    else
      match fields separates cs with
      | [] => [[c]]
      | field :: rest => (c :: field) :: rest

/-- The fields between commas. -/
def commaFields (t : Text) : List Text := fields (· == ',') t

/-- The maximal runs of characters that are not blank. -/
def words (t : Text) : List Text := (fields isBlank t).filter (! ·.isEmpty)

/-- The part before the first occurrence of a character, or the whole text. -/
def before (c : Char) (t : Text) : Text := t.takeWhile (· != c)

/-- The part after the first occurrence of a character, or nothing. -/
def after (c : Char) (t : Text) : Text := (t.dropWhile (· != c)).drop 1

/-- What follows a given beginning, if the text begins so. -/
def dropStart? : (start : Text) → Text → Option Text
  | [], t => some t
  | _ :: _, [] => none
  | s :: start, c :: cs => if s = c then dropStart? start cs else none

/-- Whether the text begins with a given text. -/
def startsWith (start t : Text) : Bool := (dropStart? start t).isSome

/-- The decimal text of a natural number. -/
def ofNat (n : Nat) : Text := Nat.toDigits 10 n

/-- The decimal text of an integer. -/
def ofInt : Int → Text
  | .ofNat n => ofNat n
  | .negSucc n => '-' :: ofNat (n + 1)

theorem dropStart?_eq_some_iff {start t rest : Text} :
    dropStart? start t = some rest ↔ t = start ++ rest := by
  fun_induction dropStart? start t with
  | case1 t => simp
  | case2 => simp
  | case3 start s cs ih => simpa using ih
  | case4 s start c cs h => simp [Ne.symm h]

theorem startsWith_iff_isPrefix {start t : Text} : startsWith start t ↔ start <+: t := by
  simp only [startsWith, Option.isSome_iff_exists, dropStart?_eq_some_iff]
  exact ⟨fun ⟨rest, h⟩ => ⟨rest, h.symm⟩, fun ⟨rest, h⟩ => ⟨rest, h.symm⟩⟩

theorem fields_ne_nil (separates : Char → Bool) (t : Text) : fields separates t ≠ [] := by
  fun_induction fields separates t <;> simp

end Text

end PolicyRules
