import TermCapture.Text.Line
import TermCapture.Text.Quoted

namespace TermCapture

/-- How many values follow a switch. -/
inductive Arity
  | none
  | one
  | many
  deriving DecidableEq, Repr

/-- A switch of a command line; short names have one dash. -/
structure Switch (κ : Type) where
  key : κ
  names : List String
  arity : Arity
  deriving Repr

/-- The switches of a program, and what its only operand stands for if it takes one. -/
structure Grammar (κ : Type) where
  program : String
  switches : List (Switch κ)
  operand : Option κ
  deriving Repr

/-- A switch or operand that was given. -/
structure Given (κ : Type) where
  key : κ
  values : List String
  deriving Repr

/-- What a switch for one value was given; two dashes attached to it leave it blank. -/
inductive Setting (α : Type)
  | given (a : α)
  | blank
  deriving DecidableEq, Repr

def Given.setting {κ ε α : Type} (g : Given κ) (read : String → Except ε α) : Except ε (Setting α) :=
  match g.values with
  | [] => .ok .blank
  | v :: _ => (read v).map .given

/-- Why a command line is refused. `names` are those of the switch at fault. -/
inductive UsageError
  | ambiguous (argument : String) (candidates : List String)
  | missingValue (names : List String)
  | surplusValue (names : List String) (value : String)
  | badValue (names : List String) (kind value : String)
  | badChoice (names : List String) (value : String) (choices : List String)
  | unrecognized (arguments : List String)
  deriving DecidableEq, Repr

def UsageError.message : UsageError → String
  | .ambiguous a cs => s!"ambiguous option: {a} could match " ++ ", ".intercalate cs
  | .missingValue ns => "argument " ++ "/".intercalate ns ++ ": expected one argument"
  | .surplusValue ns v => "argument " ++ "/".intercalate ns ++ ": ignored explicit argument " ++ Text.quoted v
  | .badValue ns kind v => "argument " ++ "/".intercalate ns ++ s!": invalid {kind} value: " ++ Text.quoted v
  | .badChoice ns v cs =>
    "argument " ++ "/".intercalate ns ++ ": invalid choice: " ++ Text.quoted v ++
      " (choose from " ++ ", ".intercalate (cs.map Text.quoted) ++ ")"
  | .unrecognized as => "unrecognized arguments: " ++ " ".intercalate as

/-- Why no options come of a command line: it asks for help, or it is refused. -/
inductive Refusal
  | help
  | usage (e : UsageError)
  deriving DecidableEq, Repr

def readIntegerValue (names : List String) (value : String) : Except Refusal Int :=
  match Text.readDecimal? value with
  | some n => .ok n
  | none => .error (.usage (.badValue names "int" value))

def readChoice {α : Type} (names : List String) (all : List α) (name : α → String) (value : String) :
    Except Refusal α :=
  match all.find? (name · = value) with
  | some a => .ok a
  | none => .error (.usage (.badChoice names value (all.map name)))

/-- An argument by its form. A switch may have its value attached to it. -/
inductive Word (κ : Type)
  | operand (text : String)
  | dashes
  | switch (text : String) (s : Switch κ) (short : Bool) (attached : Option (List Char))
  | unknown (text : String)
  deriving Repr

namespace Word

variable {κ : Type}

def text : Word κ → String
  | .operand t => t
  | .dashes => "--"
  | .switch t _ _ _ => t
  | .unknown t => t

def isOption : Word κ → Bool
  | .switch .. | .unknown _ => true
  | _ => false

def operand? : Word κ → Option String
  | .operand t => some t
  | _ => none

end Word

/-- The part before the first equals sign and the part after it. -/
def splitEquals (cs : List Char) : List Char × Option (List Char) :=
  match cs.dropWhile (· ≠ '=') with
  | [] => (cs, none)
  | _ :: rest => (cs.takeWhile (· ≠ '='), some rest)

/-- Integers and decimal fractions behind a minus sign, which are values and not switches. A line
feed at the end does no harm. -/
def isNegativeNumber (cs : List Char) : Bool :=
  let digit (c : Char) : Bool := (Text.decimalDigit? c).isSome
  let cs := if cs.getLast? = some '\n' then cs.dropLast else cs
  match cs with
  | '-' :: cs =>
    (!cs.isEmpty && cs.all digit) ||
      match cs.dropWhile digit with
      | '.' :: ds => !ds.isEmpty && ds.all digit
      | _ => false
  | _ => false

namespace Grammar

variable {κ : Type}

/-- Every name with its switch, in the order of their definition. -/
def names (g : Grammar κ) : List (String × Switch κ) :=
  g.switches.flatMap fun s ↦ s.names.map fun n ↦ (n, s)

def switch? (g : Grammar κ) (name : String) : Option (Switch κ) :=
  (g.names.find? (·.1 = name)).map (·.2)

/-- The readings of an argument that is no whole name: the start of a long name, or a short name
with its value. -/
def candidates (g : Grammar κ) (argument : List Char) : List (String × Word κ) :=
  let text := String.ofList argument
  match argument with
  | '-' :: '-' :: _ =>
    let (start, value) := splitEquals argument
    (g.names.filter fun n ↦ start.isPrefixOf n.1.toList).map fun n ↦
      (n.1, .switch text n.2 false value)
  | '-' :: c :: value =>
    (g.names.filter fun n ↦ n.1 = String.ofList ['-', c]).map fun n ↦
      (n.1, .switch text n.2 true (some value))
  | _ => []

def isShort (name : List Char) : Bool := name[1]? ≠ some '-'

def word (g : Grammar κ) (argument : String) : Except UsageError (Word κ) :=
  let cs := argument.toList
  match cs with
  | '-' :: _ :: _ =>
    match g.switch? argument with
    | some s => .ok (.switch argument s (isShort cs) none)
    | none =>
      let (name, value) := splitEquals cs
      match value, g.switch? (String.ofList name) with
      | some v, some s => .ok (.switch argument s (isShort name) (some v))
      | _, _ => match g.candidates cs with
        | [] =>
          if isNegativeNumber cs || cs.contains ' ' then .ok (.operand argument)
          else .ok (.unknown argument)
        | [(_, w)] => .ok w
        | ws => .error (.ambiguous argument (ws.map (·.1)))
  | _ => .ok (.operand argument)

/-- Everything behind two dashes is an operand. -/
def words (g : Grammar κ) : List String → Except UsageError (List (Word κ))
  | [] => .ok []
  | a :: as =>
    if a = "--" then .ok (.dashes :: as.map .operand)
    else do
      let w ← g.word a
      let ws ← g.words as
      return w :: ws

/-- What one switch argument gives, and how many of the following words it takes. -/
structure Consumed (κ : Type) where
  given : List (Given κ)
  taken : Nat := 0

def attachedValues (text : List Char) : List String :=
  if text = ['-', '-'] then [] else [String.ofList text]

/-- Reads a switch argument. A short switch without a value may be followed by other ones in the same
argument. -/
def consume (g : Grammar κ) (rest : List (Word κ)) (s : Switch κ) (short : Bool) :
    Option (List Char) → Except UsageError (Consumed κ)
  | none => match s.arity with
    | .none => .ok { given := [⟨s.key, []⟩] }
    | .one => match rest with
      | .operand t :: _ => .ok { given := [⟨s.key, [t]⟩], taken := 1 }
      | _ => .error (.missingValue s.names)
    | .many =>
      let ts := (rest.map Word.operand?).takeWhile Option.isSome
      .ok { given := [⟨s.key, ts.filterMap id⟩], taken := ts.length }
  | some [] => match s.arity with
    | .one | .many => .ok { given := [⟨s.key, [""]⟩] }
    | .none => .error (.surplusValue s.names "")
  | some (c :: cs) => match s.arity with
    | .one | .many => .ok { given := [⟨s.key, attachedValues (c :: cs)⟩] }
    | .none => match short, g.switch? (String.ofList ['-', c]) with
      | true, some s' => do
        let r ← g.consume rest s' true (if cs.isEmpty then none else some cs)
        return { r with given := ⟨s.key, []⟩ :: r.given }
      | _, _ => .error (.surplusValue s.names (String.ofList (c :: cs)))
  termination_by attached => (attached.map (·.length + 1)).getD 0
  decreasing_by split <;> simp

/-- What a command line gives, up to the fault that ends it or else with the arguments that it has no
use for. -/
structure Walk (κ : Type) where
  given : List (Given κ) := []
  ending : Except UsageError (List String) := .ok []

namespace Walk

def give (given : List (Given κ)) (w : Walk κ) : Walk κ := ⟨given ++ w.given, w.ending⟩

def skip (extra : String) (w : Walk κ) : Walk κ := ⟨w.given, w.ending.map (extra :: ·)⟩

end Walk

/-- The words behind the last switch. The operand is the first of them, whether two dashes precede it
or not. -/
def walkOperands (operand : Option κ) (ws : List (Word κ)) : Walk κ :=
  let extras (ws : List (Word κ)) : Except UsageError (List String) := .ok (ws.map Word.text)
  match operand, ws with
  | none, ws => ⟨[], extras ws⟩
  | some _, [] => {}
  | some k, [.operand t] => ⟨[⟨k, [t]⟩], .ok []⟩
  | some k, .operand t :: .dashes :: ws => ⟨[⟨k, [t]⟩], extras ws⟩
  | some k, .dashes :: .operand t :: ws => ⟨[⟨k, [t]⟩], extras ws⟩
  | some _, [.dashes] => {}
  | some k, .operand t :: ws => ⟨[⟨k, [t]⟩], extras ws⟩
  | some _, ws => ⟨[], extras ws⟩

def walk (g : Grammar κ) (operand : Option κ) : List (Word κ) → Walk κ
  | [] => {}
  | w :: ws =>
    if !(w :: ws).any Word.isOption then walkOperands operand (w :: ws)
    else match w with
      | .switch _ s short attached =>
        match g.consume ws s short attached with
        | .error e => ⟨[], .error e⟩
        | .ok r => (g.walk operand (ws.drop r.taken)).give r.given
      | .unknown t => (g.walk operand ws).skip t
      | .dashes => (g.walk operand ws).skip "--"
      | .operand t => match operand with
        | some k => (g.walk none ws).give [⟨k, [t]⟩]
        | none => (g.walk none ws).skip t
  termination_by ws => ws.length
  decreasing_by
    · simp only [List.length_drop, List.length_cons]
      omega
    all_goals simp

/-- Reads a command line on top of `start`. What is given is taken in its order, so the first fault
counts. -/
def read {σ : Type} (g : Grammar κ) (take : σ → Given κ → Except Refusal σ) (start : σ)
    (arguments : List String) : Except Refusal σ := do
  let ws ← (g.words arguments).mapError .usage
  let w := g.walk g.operand ws
  let s ← w.given.foldlM take start
  match w.ending with
  | .error e => throw (.usage e)
  | .ok [] => return s
  | .ok as => throw (.usage (.unrecognized as))

/-- The last line of the complaint, as arguments may hold line ends. -/
def usageLine (g : Grammar κ) (e : UsageError) : String :=
  Text.lastLine (g.program ++ ": error: " ++ e.message)

end Grammar

end TermCapture
