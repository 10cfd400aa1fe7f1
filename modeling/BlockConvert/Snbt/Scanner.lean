import BlockConvert.Snbt.Parser

set_option autoImplicit false

/-!
# Reading at byte positions

Tags are read once more, this time over a text that stays whole. A cursor holds a position in bytes
and is moved on by one byte, by two or by the width of a character; it keeps every position at which
it has been. The text may be cut only where a character starts, or at its end. To cut it anywhere
else stops the scan, and so does a loop, or a nesting, that goes on for longer than the text.
-/

namespace BlockConvert.Snbt

/-- A character of the text starts at the position, or the text ends there. -/
def IsBoundary (text : String) (position : Nat) : Prop := String.Pos.Raw.IsValid text ⟨position⟩

instance (text : String) (position : Nat) : Decidable (IsBoundary text position) :=
  inferInstanceAs (Decidable (String.Pos.Raw.IsValid text ⟨position⟩))

def cut? (text : String) (first last : Nat) : Option String :=
  if first ≤ last ∧ IsBoundary text first ∧ IsBoundary text last then
    some (String.Pos.Raw.extract text ⟨first⟩ ⟨last⟩)
  else none

structure Cursor where
  position : Nat
  /-- The positions before this one, the latest first. -/
  past : List Nat

namespace Cursor

def start : Cursor := ⟨0, []⟩

def moveTo (c : Cursor) (position : Nat) : Cursor := ⟨position, c.position :: c.past⟩

/-- All positions at which the cursor has been, the latest first. -/
def visited (c : Cursor) : List Nat := c.position :: c.past

end Cursor

inductive Halt where
  | offBoundary
  | outOfBound
  | refused (e : SnbtError)

abbrev Scanner (α : Type) : Type := ReaderT String (ExceptT Halt (StateM Cursor)) α

namespace Scanner

variable {α : Type}

def runAt (m : Scanner α) (text : String) (c : Cursor) : Except Halt α × Cursor :=
  (m.run text).run.run c

def refuse (e : SnbtError) : Scanner α := throw (.refused e)

def checked (piece? : Option α) : Scanner α :=
  match piece? with
  | some piece => return piece
  | none => throw .offBoundary

@[simp] theorem runAt_pure (x : α) (text : String) (c : Cursor) :
    (pure x : Scanner α).runAt text c = (.ok x, c) := rfl

@[simp] theorem runAt_refuse (e : SnbtError) (text : String) (c : Cursor) :
    (refuse e : Scanner α).runAt text c = (.error (.refused e), c) := rfl

theorem runAt_bind {β : Type} (m : Scanner α) (k : α → Scanner β) (text : String) (c : Cursor) :
    (m >>= k).runAt text c =
      match m.runAt text c with
      | (.ok x, next) => (k x).runAt text next
      | (.error e, next) => (.error e, next) := by
  simp only [runAt, ReaderT.run_bind, ExceptT.run_bind, StateT.run_bind]
  rcases (m.run text).run.run c with ⟨_ | _, _⟩ <;> rfl

theorem runAt_bind_ok {β : Type} {m : Scanner α} {k : α → Scanner β} {text : String}
    {c next : Cursor} {x : α} (h : m.runAt text c = (.ok x, next)) :
    (m >>= k).runAt text c = (k x).runAt text next := by rw [runAt_bind, h]

theorem runAt_bind_error {β : Type} {m : Scanner α} {k : α → Scanner β} {text : String}
    {c next : Cursor} {e : Halt} (h : m.runAt text c = (.error e, next)) :
    (m >>= k).runAt text c = (.error e, next) := by rw [runAt_bind, h]

@[simp] theorem runAt_read_bind {β : Type} (k : String → Scanner β) (text : String) (c : Cursor) :
    (read >>= k).runAt text c = (k text).runAt text c := rfl

/-! ## Moving the cursor -/

def position : Scanner Nat := return (← get).position

def moveTo (p : Nat) : Scanner Unit := modify fun c => c.moveTo p

def advance (bytes : Nat) : Scanner Unit := do moveTo ((← position) + bytes)

@[simp] theorem runAt_position_bind {β : Type} (k : Nat → Scanner β) (text : String) (c : Cursor) :
    (position >>= k).runAt text c = (k c.position).runAt text c := rfl

@[simp] theorem runAt_moveTo (p : Nat) (text : String) (c : Cursor) :
    (moveTo p).runAt text c = (.ok (), c.moveTo p) := rfl

def back (bytes : Nat) : Scanner Nat := do
  let p ← position
  if bytes ≤ p then return p - bytes else throw .offBoundary

def remaining : Scanner String := do
  let text ← read
  checked (cut? text (← position) text.utf8ByteSize)

def peek : Scanner (Option Char) := return (← remaining).toList.head?

def bump : Scanner (Option Char) := do
  match ← peek with
  | none => return none
  | some c => do
    advance c.utf8Size
    return some c

/-- A bound on the number of characters that a loop can pass. -/
def loopBound : Scanner Nat := return (← read).toList.length + 1

@[simp] theorem runAt_loopBound_bind {β : Type} (k : Nat → Scanner β) (text : String) (c : Cursor) :
    (loopBound >>= k).runAt text c = (k (text.toList.length + 1)).runAt text c := rfl

def skipWhile (skips : Char → Bool) : (bound : Nat) → Scanner Unit
  | 0 => throw .outOfBound
  | bound + 1 => do
    match ← peek with
    | none => return ()
    | some c =>
      if skips c then do
        advance c.utf8Size
        skipWhile skips bound
      else return ()

def skipAll (skips : Char → Bool) : Scanner Unit := do skipWhile skips (← loopBound)

def skipBlank : Scanner Unit := skipAll Text.isBlank

/-! ## Words, texts in quotes and keys -/

def unexpected : Scanner α := do
  match ← peek with
  | none => refuse .unexpectedEnd
  | some found => refuse (.unexpected found (← position))

def expect (c : Char) : Scanner Unit := do
  skipBlank
  if (← peek) = some c then advance c.utf8Size else unexpected

def bare : Scanner String := do
  let first ← position
  skipAll isBare
  checked (cut? (← read) first (← position))

def quotedRest (quote : Char) : (bound : Nat) → Scanner (List Char)
  | 0 => throw .outOfBound
  | bound + 1 => do
    match ← bump with
    | none => refuse .unexpectedEnd
    | some c =>
      if c = '\\' then
        match ← bump with
        | none => refuse .unexpectedEnd
        | some d => return (if d = 'n' then '\n' else d) :: (← quotedRest quote bound)
      else if c = quote then return []
      else return c :: (← quotedRest quote bound)

def quoted : Scanner String := do
  match ← bump with
  | none => refuse .unexpectedEnd
  | some quote => return String.ofList (← quotedRest quote (← loopBound))

def bareKey : Scanner String := do
  let word ← bare
  if word = "" then unexpected else return word

def key : Scanner String := do
  skipBlank
  match ← peek with
  | none => bareKey
  | some c => if isQuote c then quoted else bareKey

/-- As `Snbt.classify`; the suffix of a number is cut off one byte before the end of the word. -/
def classify (word : String) : Scanner Tag := do
  if word = "true" then return .byte 1
  else if word = "false" then return .byte 0
  else if looksNumeric word.toList then do
    let last := word.utf8ByteSize - 1
    let body ← checked (cut? word 0 last)
    let suffix ← checked (cut? word last word.utf8ByteSize)
    let suffixedNumber? := suffix.toList.head?.bind (suffixed? body.toList)
    return (suffixedNumber? <|> int? word.toList <|> pointed? word.toList).getD (.string word)
  else return .string word

/-- A bare word as a value. Where there is none, the cursor is put back to where it was. -/
def bareValue : Scanner Tag := do
  let first ← position
  let word ← bare
  if word = "" then do
    moveTo first
    unexpected
  else classify word

/-! ## Compounds, lists and arrays -/

def items (item : Scanner α) (close : Char) : (bound : Nat) → Scanner (List α)
  | 0 => throw .outOfBound
  | bound + 1 => do
    let x ← item
    skipBlank
    match ← bump with
    | none => refuse .unexpectedEnd
    | some c =>
      if c = ',' then return x :: (← items item close bound)
      else if c = close then return [x]
      -- the character is behind the cursor by now
      else refuse (.unexpected c (← back c.utf8Size))

def body (item : Scanner α) (close : Char) : Scanner (List α) := do
  skipBlank
  if (← peek) = some close then do
    advance 1
    return []
  else items item close (← loopBound)

def entry (value : Scanner Tag) : Scanner (String × Tag) := do
  let k ← key
  expect ':'
  return (k, ← value)

def compound (value : Scanner Tag) : Scanner Tag := do
  expect '\x7b'
  return .compound (Table.ofEntries (← body (entry value) '\x7d'))

/-- What comes of the elements of a list or an array, which are refused without a position. -/
def settle (made : Except Fault Tag) : Scanner Tag := do
  match made with
  | .ok t => return t
  | .error fault => refuse (SnbtError.ofFault (← read).toList fault)

def markedArray? (mark : String) : Option Kind :=
  if mark = "B;" then some .byteArray
  else if mark = "I;" then some .intArray
  else if mark = "L;" then some .longArray
  else none

def listOrArray (value : Scanner Tag) : Scanner Tag := do
  expect '['
  -- two bytes need not end where a character ends
  match (cut? (← remaining) 0 2).bind markedArray? with
  | none => settle (listOf (← body value ']'))
  | some array => do
    advance 2
    settle (arrayOf array (← body value ']'))

def value : (bound : Nat) → Scanner Tag
  | 0 => throw .outOfBound
  | bound + 1 => do
    skipBlank
    match ← peek with
    | none => refuse .unexpectedEnd
    | some c =>
      if c = '\x7b' then compound (value bound)
      else if c = '[' then listOrArray (value bound)
      else if isQuote c then return .string (← quoted)
      else bareValue

def finish (t : Tag) : Scanner Tag := do
  skipBlank
  let p ← position
  if p < (← read).utf8ByteSize then refuse (.trailing p) else return t

def whole : Scanner Tag := do
  let t ← value (← loopBound)
  finish t

end Scanner

/-- Reads a text that holds one tag and blanks around it, from its first byte. -/
def scan (text : String) : Except Halt Tag × Cursor := Scanner.whole.runAt text .start

end BlockConvert.Snbt
