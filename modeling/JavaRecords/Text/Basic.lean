import JavaRecords.Text.Letter

set_option autoImplicit false

namespace JavaRecords

/-- A text: its characters in order. Every offset into a text counts the bytes of its UTF-8 form. -/
abbrev Text := List Char

namespace Text

def byteSize : Text → Nat
  | [] => 0
  | c :: rest => c.utf8Size + byteSize rest

@[simp] theorem byteSize_nil : byteSize [] = 0 := rfl

@[simp] theorem byteSize_cons (c : Char) (rest : Text) :
    byteSize (c :: rest) = c.utf8Size + byteSize rest := rfl

@[simp] theorem byteSize_append (left right : Text) :
    byteSize (left ++ right) = byteSize left + byteSize right := by
  induction left with
  | nil => simp
  | cons c rest ih => simp [ih, Nat.add_assoc]

theorem byteSize_pos_of_ne_nil (text : Text) (nonempty : text ≠ []) : 0 < byteSize text := by
  cases text with
  | nil => exact absurd rfl nonempty
  | cons c rest =>
      have := Char.utf8Size_pos c
      simp only [byteSize_cons]
      omega

def bytes (text : Text) : List UInt8 := text.flatMap String.utf8EncodeChar

@[simp] theorem bytes_append (left right : Text) :
    bytes (left ++ right) = bytes left ++ bytes right := by
  simp [bytes]

/-- Cuts a text at a byte offset. There is no cut inside a character or past the end. -/
def splitAt? : Nat → Text → Option (Text × Text)
  | 0, text => some ([], text)
  | _ + 1, [] => none
  | offset + 1, c :: rest =>
      if c.utf8Size ≤ offset + 1 then
        (splitAt? (offset + 1 - c.utf8Size) rest).map fun cut => (c :: cut.1, cut.2)
      else none

@[simp] theorem splitAt?_zero (text : Text) : splitAt? 0 text = some ([], text) := by
  cases text <;> rfl

/-- A text can be cut exactly where it was joined. -/
@[simp] theorem splitAt?_append (left right : Text) :
    splitAt? (byteSize left) (left ++ right) = some (left, right) := by
  induction left with
  | nil => simp
  | cons c rest ih =>
      have positive := Char.utf8Size_pos c
      obtain ⟨n, size⟩ : ∃ n, byteSize (c :: rest) = n + 1 :=
        ⟨byteSize (c :: rest) - 1, by simp only [byteSize_cons]; omega⟩
      have enough : c.utf8Size ≤ n + 1 := by
        rw [← size]
        simp
      have remaining : n + 1 - c.utf8Size = byteSize rest := by
        rw [← size]
        simp
      rw [size, List.cons_append, splitAt?]
      simp [enough, remaining, ih]

theorem append_of_splitAt? {offset : Nat} {text left right : Text}
    (cut : splitAt? offset text = some (left, right)) :
    left ++ right = text ∧ byteSize left = offset := by
  induction text generalizing offset left right with
  | nil =>
      cases offset with
      | zero => simp_all
      | succ n => simp [splitAt?] at cut
  | cons c rest ih =>
      cases offset with
      | zero => simp_all
      | succ n =>
          rw [splitAt?] at cut
          split at cut
          · rename_i fits
            simp only [Option.map_eq_some_iff, Prod.mk.injEq, Prod.exists] at cut
            obtain ⟨front, back, found, rfl, rfl⟩ := cut
            obtain ⟨joined, sized⟩ := ih found
            refine ⟨by simp [joined], ?_⟩
            simp only [byteSize_cons, sized]
            omega
          · simp at cut

/-- The text between two byte offsets, when both are cuts and in order. -/
def slice? (text : Text) (start stop : Nat) : Option Text :=
  if start ≤ stop then do
    let (_, right) ← splitAt? start text
    let (middle, _) ← splitAt? (stop - start) right
    some middle
  else none

/-- The middle part of a text lies between the offsets of its ends. -/
theorem slice?_append (left middle right : Text) :
    slice? (left ++ middle ++ right) (byteSize left) (byteSize left + byteSize middle) =
      some middle := by
  simp [slice?, List.append_assoc]

def trimStart (text : Text) : Text := text.dropWhile isSpace

def trimEnd (text : Text) : Text := (text.reverse.dropWhile isSpace).reverse

def trim (text : Text) : Text := trimEnd (trimStart text)

/-- The text without any blank character. -/
def compact (text : Text) : Text := text.filter fun c => !isSpace c

def occursIn (part : Text) : Text → Bool
  | [] => part.isEmpty
  | c :: rest => part.isPrefixOf (c :: rest) || occursIn part rest

/-- The number of line feeds that start before a byte offset. -/
def newlinesBefore : Nat → Text → Nat
  | _, [] => 0
  | offset, c :: rest =>
      if offset = 0 then 0
      else (if c = '\n' then 1 else 0) + newlinesBefore (offset - c.utf8Size) rest

/-- The line, counted from one, of a byte offset. -/
def lineOf (text : Text) (offset : Nat) : Nat := newlinesBefore offset text + 1

/-- The line terminator of a text: a carriage return and a line feed if they occur together
anywhere, a line feed otherwise. -/
def lineEnding (text : Text) : Text :=
  if occursIn ['\r', '\n'] text then ['\r', '\n'] else ['\n']

def lastLine (text : Text) : Text := (text.reverse.takeWhile (· ≠ '\n')).reverse

def indentation? (text : Text) : Option Text :=
  let line := lastLine text
  if line.all isSpace then some line else none

/-- Cuts a text at every occurrence of a character, which is left out. There is always at least
one part. -/
def splitOn (mark : Char) : Text → List Text
  | [] => [[]]
  | c :: rest =>
      if c = mark then [] :: splitOn mark rest
      else match splitOn mark rest with
        | [] => [[c]]
        | part :: parts => (c :: part) :: parts

/-- Writes every run of three dots as a pair of brackets, from left to right. -/
def dotsToBrackets : Text → Text
  | '.' :: '.' :: '.' :: rest => '[' :: ']' :: dotsToBrackets rest
  | c :: rest => c :: dotsToBrackets rest
  | [] => []

def join (separator : Text) : List Text → Text
  | [] => []
  | [part] => part
  | part :: parts => part ++ separator ++ join separator parts

def asciiLower (text : Text) : Text := text.map Char.toLower

end Text

end JavaRecords
