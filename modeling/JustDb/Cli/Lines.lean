import JustDb.Library.Words
import JustDb.Serialization

/-!
# Lines of the interactive mode

`run_intractive_mode` takes a line apart at whitespace and matches its first word, in
uppercase, against the commands.
-/

namespace JustDb

namespace Cli

/-- `char::is_whitespace` -/
def isWhitespace (c : Char) : Bool :=
  (9 ≤ c.toNat && c.toNat ≤ 13) || c.toNat == 0x20 || c.toNat == 0x85 || c.toNat == 0xA0 ||
    c.toNat == 0x1680 || (0x2000 ≤ c.toNat && c.toNat ≤ 0x200A) || c.toNat == 0x2028 ||
    c.toNat == 0x2029 || c.toNat == 0x202F || c.toNat == 0x205F || c.toNat == 0x3000

/-- `char::to_uppercase`, for the letters whose uppercase is ASCII.  No other letter can be
part of a command, and it stands for itself here. -/
def toUppercase (c : Char) : List Char :=
  if 'a' ≤ c ∧ c ≤ 'z' then [Char.ofNat (c.toNat - 32)]
  else if c = 'ı' then ['I']
  else if c = 'ſ' then ['S']
  else if c = 'ß' then ['S', 'S']
  else if c = 'ﬀ' then ['F', 'F']
  else if c = 'ﬁ' then ['F', 'I']
  else if c = 'ﬂ' then ['F', 'L']
  else if c = 'ﬃ' then ['F', 'F', 'I']
  else if c = 'ﬄ' then ['F', 'F', 'L']
  else if c = 'ﬅ' ∨ c = 'ﬆ' then ['S', 'T']
  else [c]

/-- The commands; `EXIT` is another name of `QUIT`. -/
inductive Verb where
  | put
  | get
  | delete
  | scan
  | stats
  | quit
  deriving DecidableEq, Repr

namespace Verb

/-- The command that a word names. -/
def ofWord (word : List Char) : Option Verb :=
  let upper := word.flatMap toUppercase
  if upper = ['P', 'U', 'T'] then some .put
  else if upper = ['G', 'E', 'T'] then some .get
  else if upper = ['D', 'E', 'L', 'E', 'T', 'E'] then some .delete
  else if upper = ['S', 'C', 'A', 'N'] then some .scan
  else if upper = ['S', 'T', 'A', 'T', 'S'] then some .stats
  else if upper = ['Q', 'U', 'I', 'T'] ∨ upper = ['E', 'X', 'I', 'T'] then some .quit
  else none

/-- How many arguments a command takes; `STATS` and `QUIT` look at none. -/
def arity : Verb → Option Nat
  | .put => some 2
  | .get => some 1
  | .delete => some 1
  | .scan => some 2
  | .stats => none
  | .quit => none

/-- What is printed when a command has another number of arguments. -/
def usage : Verb → String
  | .put => "Usage: PUT <key> <value>"
  | .get => "Usage: GET <key>"
  | .delete => "Usage: DELETE <key>"
  | .scan => "Usage: SCAN <key> <value>"
  | .stats => ""
  | .quit => ""

end Verb

/-- What a line asks for. -/
inductive Line where
  | blank
  | put (key value : Bytes)
  | get (key : Bytes)
  | delete (key : Bytes)
  | scan (start stop : Bytes)
  | stats
  | quit
  | usage (verb : Verb)
  | unknown (word : String)
  deriving DecidableEq, Repr

namespace Line

/-- The bytes of a word. -/
def bytesOf (word : List Char) : Bytes :=
  asBytes (String.ofList word)

/-- A command with its arguments; `STATS` and `QUIT` look at none. -/
def ofArguments : Verb → List (List Char) → Line
  | .put, [key, value] => .put (bytesOf key) (bytesOf value)
  | .get, [key] => .get (bytesOf key)
  | .delete, [key] => .delete (bytesOf key)
  | .scan, [start, stop] => .scan (bytesOf start) (bytesOf stop)
  | .stats, _ => .stats
  | .quit, _ => .quit
  | verb, _ => .usage verb

/-- The `match` on the parts of a line. -/
def ofParts : List (List Char) → Line
  | [] => .blank
  | first :: arguments =>
      match Verb.ofWord first with
      | some verb => ofArguments verb arguments
      | none => .unknown (String.ofList first)

/-- One line of input. -/
def ofText (input : String) : Line :=
  let trimmed := Words.trim isWhitespace input.toList
  if trimmed.isEmpty then .blank
  else ofParts (Words.words isWhitespace trimmed)

example : ofText "  pUt a\tbé \n" = .put [97] [98, 195, 169] := by decide +kernel

example : ofText "ﬆats now" = .stats := by decide +kernel

/-- The words of a line decide what it asks for. -/
theorem ofText_eq (input : String) :
    ofText input = ofParts (Words.words isWhitespace input.toList) := by
  rw [ofText, ← Words.words_trim input.toList]
  split
  next empty =>
    rw [List.isEmpty_iff.mp empty]
    rfl
  · rfl

/-- What the words of a line mean. -/
inductive Means : List (List Char) → Line → Prop
  | blank : Means [] .blank
  | put {word key value : List Char} (named : Verb.ofWord word = some .put) :
      Means [word, key, value] (.put (bytesOf key) (bytesOf value))
  | get {word key : List Char} (named : Verb.ofWord word = some .get) :
      Means [word, key] (.get (bytesOf key))
  | delete {word key : List Char} (named : Verb.ofWord word = some .delete) :
      Means [word, key] (.delete (bytesOf key))
  | scan {word start stop : List Char} (named : Verb.ofWord word = some .scan) :
      Means [word, start, stop] (.scan (bytesOf start) (bytesOf stop))
  | stats {word : List Char} {arguments : List (List Char)}
      (named : Verb.ofWord word = some .stats) : Means (word :: arguments) .stats
  | quit {word : List Char} {arguments : List (List Char)}
      (named : Verb.ofWord word = some .quit) : Means (word :: arguments) .quit
  | usage {word : List Char} {arguments : List (List Char)} {verb : Verb} {arity : Nat}
      (named : Verb.ofWord word = some verb) (takes : verb.arity = some arity)
      (wrong : arguments.length ≠ arity) : Means (word :: arguments) (.usage verb)
  | unknown {word : List Char} {arguments : List (List Char)}
      (unnamed : Verb.ofWord word = none) :
      Means (word :: arguments) (.unknown (String.ofList word))

theorem means_ofArguments {word : List Char} {verb : Verb}
    (named : Verb.ofWord word = some verb) (arguments : List (List Char)) :
    Means (word :: arguments) (ofArguments verb arguments) := by
  cases verb with
  | stats => exact .stats named
  | quit => exact .quit named
  | put =>
      rcases arguments with _ | ⟨key, _ | ⟨value, _ | ⟨other, rest⟩⟩⟩
      case cons.cons.nil => exact .put named
      all_goals exact .usage named rfl (by simp)
  | scan =>
      rcases arguments with _ | ⟨start, _ | ⟨stop, _ | ⟨other, rest⟩⟩⟩
      case cons.cons.nil => exact .scan named
      all_goals exact .usage named rfl (by simp)
  | get =>
      rcases arguments with _ | ⟨key, _ | ⟨other, rest⟩⟩
      case cons.nil => exact .get named
      all_goals exact .usage named rfl (by simp)
  | delete =>
      rcases arguments with _ | ⟨key, _ | ⟨other, rest⟩⟩
      case cons.nil => exact .delete named
      all_goals exact .usage named rfl (by simp)

theorem means_ofParts (parts : List (List Char)) : Means parts (ofParts parts) := by
  cases parts with
  | nil => exact .blank
  | cons word arguments =>
      rw [ofParts]
      cases named : Verb.ofWord word with
      | none => exact .unknown named
      | some verb => exact means_ofArguments named arguments

/-- A command with another number of arguments than it takes. -/
theorem ofArguments_of_wrong {verb : Verb} {arity : Nat} (takes : verb.arity = some arity)
    {arguments : List (List Char)} (wrong : arguments.length ≠ arity) :
    ofArguments verb arguments = .usage verb := by
  cases verb with
  | stats => cases takes
  | quit => cases takes
  | put =>
      cases takes
      rcases arguments with _ | ⟨key, _ | ⟨value, _ | ⟨other, rest⟩⟩⟩
      case cons.cons.nil => exact absurd rfl wrong
      all_goals rfl
  | scan =>
      cases takes
      rcases arguments with _ | ⟨start, _ | ⟨stop, _ | ⟨other, rest⟩⟩⟩
      case cons.cons.nil => exact absurd rfl wrong
      all_goals rfl
  | get =>
      cases takes
      rcases arguments with _ | ⟨key, _ | ⟨other, rest⟩⟩
      case cons.nil => exact absurd rfl wrong
      all_goals rfl
  | delete =>
      cases takes
      rcases arguments with _ | ⟨key, _ | ⟨other, rest⟩⟩
      case cons.nil => exact absurd rfl wrong
      all_goals rfl

theorem Means.eq_ofParts {parts : List (List Char)} {line : Line} (means : Means parts line) :
    ofParts parts = line := by
  cases means with
  | blank => rfl
  | put named => rw [ofParts, named]; rfl
  | get named => rw [ofParts, named]; rfl
  | delete named => rw [ofParts, named]; rfl
  | scan named => rw [ofParts, named]; rfl
  | stats named => rw [ofParts, named]; rfl
  | quit named => rw [ofParts, named]; rfl
  | unknown unnamed => rw [ofParts, unnamed]
  | usage named takes wrong =>
      rw [ofParts, named]
      exact ofArguments_of_wrong takes wrong

/-- A line asks for what the words that it is laid out as mean, and for nothing else: the
spelling of a command in upper or lower case and the whitespace around the words are free,
and no argument is lost, joined or cut. -/
theorem ofText_eq_iff (input : String) (line : Line) :
    ofText input = line ↔
      ∃ parts, Words.Spaced isWhitespace parts input.toList ∧ Means parts line := by
  rw [ofText_eq]
  constructor
  · rintro rfl
    exact ⟨_, Words.words_eq_iff.mp rfl, means_ofParts _⟩
  · rintro ⟨parts, spaced, means⟩
    rw [Words.words_eq_iff.mpr spaced, means.eq_ofParts]

end Line

end Cli

end JustDb
