/-!
# Plain text

A message that repeats a text as plain text leaves out what a terminal would act on: control
sequences, and control characters other than the blanks among them.

A control sequence starts with an escape, and the characters after it tell its kind:

* `[` opens a parameter list, which ends at a character from `@` to `~`;
* `]` opens a command, which ends at a bell;
* `P` opens a device string, a short header and then a body;
* `X`, `^` and `_` open a string, which is all body;
* a character from the blank to the solidus is collected, up to one that is not;
* any other character is the whole sequence.

Inside every sequence a cancel or a substitute character ends it, and an escape starts another.  A
body also ends at the byte 9C, wherever in the encoding of a character it stands.

A line break, tab, form feed or carriage return in a sequence that has no string part is printed at
once, and so is what comes after it, up to the next control character; from there on the sequence
is still open.  That is why `Scan` keeps the open sequence apart from the question whether
characters are being printed.
-/

namespace TokenScript.Text

/-- A control sequence that is still open, by what it waits for. -/
inductive Sequence where
  /-- No sequence is open. -/
  | closed
  /-- After the escape. -/
  | escape
  /-- After an escape and collected characters. -/
  | collected
  | parameters
  | command
  | device
  | deviceParameters
  | deviceCollected
  | body
  deriving DecidableEq, Repr

namespace Sequence

/-- What the first character after the escape opens. -/
def ofKind (c : Char) : Sequence :=
  match c with
  | '[' => parameters
  | ']' => command
  | 'P' => device
  | 'X' | '^' | '_' => body
  | _ => if c.toNat < 0x30 then collected else closed

/-- The open sequence after a graphic ASCII character. -/
def afterGraphic (sequence : Sequence) (c : Char) : Sequence :=
  match sequence with
  | closed => closed
  | escape => ofKind c
  | collected => if c.toNat < 0x30 then collected else closed
  | parameters => if c.toNat < 0x40 then parameters else closed
  | command => command
  | device =>
    if c.toNat < 0x30 then deviceCollected
    else if c.toNat < 0x40 then deviceParameters
    else body
  | deviceParameters =>
    if c.toNat < 0x30 then deviceCollected
    else if c.toNat < 0x3C then deviceParameters
    else body
  | deviceCollected => if c.toNat < 0x30 then deviceCollected else body
  | body => body

/-- Whether the encoding of a character has the byte that ends a body. -/
def endsBody (c : Char) : Bool :=
  (String.singleton c).toUTF8.toList.contains 0x9C

/-- The open sequence after any character. -/
def after (sequence : Sequence) (c : Char) : Sequence :=
  if c = '\x1b' then escape
  else if c = '\x18' ∨ c = '\x1a' then closed
  else if c.toNat < 0x20 then
    if sequence = command ∧ c = '\x07' then closed else sequence
  else if c.toNat < 0x7F then sequence.afterGraphic c
  else if sequence = body ∧ endsBody c then closed
  else sequence

/-- Whether blanks that control the layout are printed though the sequence is open. -/
def admitsLayout : Sequence → Bool
  | closed | escape | collected | parameters => true
  | command | device | deviceParameters | deviceCollected | body => false

end Sequence

/-- Whether a character is a blank that controls the layout. -/
def isLayout (c : Char) : Bool :=
  c = '\t' || c = '\n' || c = '\x0c' || c = '\r'

/-- Whether a character is no ASCII control character. -/
def isGraphic (c : Char) : Bool :=
  0x20 ≤ c.toNat && c.toNat ≠ 0x7F

/-- A text that is read for its plain part: the open sequence, whether characters are being printed,
and those printed so far, the last one first. -/
structure Scan where
  sequence : Sequence
  printing : Bool
  printed : List Char
  deriving DecidableEq, Repr

namespace Scan

/-- Nothing is read yet. -/
def start : Scan := ⟨.closed, false, []⟩

/-- Reads one character. -/
def step (scan : Scan) (c : Char) : Scan :=
  if scan.printing && (isGraphic c || isLayout c) then
    ⟨if c.toNat < 0x80 then scan.sequence else .closed, true, c :: scan.printed⟩
  else if isGraphic c && scan.sequence = .closed || isLayout c && scan.sequence.admitsLayout then
    ⟨scan.sequence, true, c :: scan.printed⟩
  else ⟨scan.sequence.after c, false, scan.printed⟩

end Scan

/-- The plain part of a text. -/
def plain (text : String) : String :=
  String.ofList (text.toList.foldl Scan.step .start).printed.reverse

end TokenScript.Text
