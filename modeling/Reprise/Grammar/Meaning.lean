import Reprise.Grammar
import Reprise.Parser.LengthPrefixed
import Reprise.Parser.ManyTill
import Reprise.Parser.SeparatedList
import Reprise.Parser.Traced

/-!
# The meaning of grammars

Every grammar means a parser. The parser of a rule is looked up when it is applied, through as many
rules within rules as the limit of recursion allows.
-/

namespace Reprise

/-- What the parsers of a grammar read and write besides their input. -/
structure RunState (τ ε : Type) where
  buffers : Buffers τ
  /-- How many folds that count their starts have been started. -/
  starts : Nat
  events : Array (Event τ ε)

namespace RunState

variable {τ ε : Type}

def note (e : Event τ ε) : Run (RunState τ ε) Unit :=
  modify fun s => { s with events := s.events.push e }

theorem note_eq (e : Event τ ε) (s : RunState τ ε) :
    note e s = .ok () { s with events := s.events.push e } := rfl

def write (buffer : String) (slot : Nat) (v : Value τ) : Run (RunState τ ε) Unit :=
  modify fun s => { s with buffers := s.buffers.write buffer slot v }

end RunState

/-- The parsers of grammars. -/
abbrev Rule (τ ε : Type) := Parser (RunState τ ε) τ ε (Value τ)

def FoldStart.run {τ ε : Type} : FoldStart → Run (RunState τ ε) (Value τ)
  | .zero => return .num 0
  | .list => return .list []
  | .unit => return .unit
  | .calls => do
    modify fun s => { s with starts := s.starts + 1 }
    return .num (← get).starts

namespace Shape

variable {τ : Type} [Element τ]

/-- Keeps the elements among the values. -/
def letters : Container (Value τ) (Array τ) where
  empty := #[]
  insert held
    | .elem e => held.push e
    | _ => held

/-- Gives a function the container of a shape, and how its content becomes a value. -/
def use {ω : Type} (s : Shape)
    (f : {κ : Type} → Container (Value τ) κ → (κ → Value τ) → ω) : ω :=
  match s with
  | list => f .sequence fun vs => .list vs.toList
  | set => f (.sortedUnique Value.compare) .list
  | multiset => f (.sorted Value.compare) .list
  | dropped => f .counter .dropped
  | text => f letters fun es => .text es.toList

end Shape

variable {σ τ ε κ : Type} [Payload τ ε]

def Collecting.parser {α : Type} (times : Collecting) (into : Container α κ)
    (p : Parser σ τ ε α) : Parser σ τ ε κ :=
  match times with
  | many0 => Parser.many0 into p
  | many1 => Parser.many1 into p
  | manyBetween low high => Parser.manyBetween low high into p
  | many range => Parser.many range into p
  | count n => Parser.count n into p

/-- What a container holds before the first value. -/
def Collecting.held {α : Type} (times : Collecting) (into : Container α κ) : κ :=
  match times with
  | manyBetween low _ => if times.repetition.range.inverted then into.empty else into.withRoom low
  | count n => into.withRoom n
  | _ => into.empty

theorem Collecting.parser_eq_collect {α : Type} (times : Collecting) (into : Container α κ)
    (p : Parser σ τ ε α) :
    times.parser into p = Parser.collect times.repetition into (times.held into) p := by
  cases times <;> rfl

/-- Either room is made for a number of values or none is made at all. -/
theorem Collecting.held_eq (times : Collecting) :
    (∀ {α κ : Type} (into : Container α κ), times.held into = into.empty) ∨
      ∃ n, ∀ {α κ : Type} (into : Container α κ), times.held into = into.withRoom n := by
  cases times with
  | many0 | many1 | many _ => exact .inl fun _ => rfl
  | count n => exact .inr ⟨n, fun _ => rfl⟩
  | manyBetween low high =>
    by_cases h : (manyBetween low high).repetition.range.inverted = true
    · exact .inl fun _ => if_pos h
    · exact .inr ⟨low, fun _ => if_neg h⟩

def Folding.parser {α β : Type} (times : Folding) (init : Run σ β) (step : β → α → β)
    (p : Parser σ τ ε α) : Parser σ τ ε β :=
  match times with
  | many0 => Parser.foldMany0 init step p
  | many1 => Parser.foldMany1 init step p
  | manyBetween low high => Parser.foldManyBetween low high init step p
  | within range => Parser.fold range init step p

theorem Folding.parser_eq_foldOver {α β : Type} (times : Folding) (init : Run σ β)
    (step : β → α → β) (p : Parser σ τ ε α) :
    times.parser init step p = Parser.foldOver times.repetition init step p := by
  cases times <;> rfl

namespace Grammar

variable [Element τ]

/-- A length read as a number. -/
def lengthOf (p : Rule τ ε) : Parser (RunState τ ε) τ ε Nat := p.map Value.number

/-- The parser a grammar means, where `rule` gives the parsers of the rules it refers to. -/
def parser (rule : String → Rule τ ε) : Grammar τ → Rule τ ε
  | one => Parser.map .elem Parser.one
  | eof => Parser.map (fun _ => .unit) Parser.eof
  | epsilon => Parser.map (fun _ => .unit) Parser.epsilon
  | tag mode (.own es) => Parser.map .slice (Parser.literal mode es)
  | tag mode (.foreign vs) => Parser.map .slice (Parser.foreign mode vs)
  | takeWhile set least kind => Parser.map .slice (Parser.takeWhile set.contains least kind)
  | digits least => Parser.map .slice (Parser.digits least)
  | letters => Parser.map .slice Parser.letters
  | uint mode width order => Parser.map .num (Parser.uint mode width order)
  | opt p => Parser.map (fun | some v => .given v | none => .missing) (p.parser rule).opt
  | cut p => (p.parser rule).cut
  | boxed p => p.parser rule
  | map f p => (p.parser rule).map f.apply
  | collect times shape p => shape.use fun into finish =>
    (times.parser into (p.parser rule)).map finish
  | many0Count p => (p.parser rule).many0Count.map .num
  | many1Count p => (p.parser rule).many1Count.map .num
  | fold times start step p => times.parser start.run step.apply (p.parser rule)
  | manyTill shape till p => shape.use fun into finish =>
    (Parser.manyTill into (p.parser rule) (till.parser rule)).map
      fun (held, u) => .pair (finish held) u
  | separatedList0 shape sep p => shape.use fun into finish =>
    (Parser.separatedList0 into (sep.parser rule) (p.parser rule)).map finish
  | separatedList1 shape sep p => shape.use fun into finish =>
    (Parser.separatedList1 into (sep.parser rule) (p.parser rule)).map finish
  | lengthData len => (Parser.lengthData (lengthOf (len.parser rule))).map .slice
  | lengthValue len p => Parser.lengthValue (lengthOf (len.parser rule)) (p.parser rule)
  | lengthCount shape len p => shape.use fun into finish =>
    (Parser.lengthCount (lengthOf (len.parser rule)) into (p.parser rule)).map finish
  | fill buffer _ p => fun x => do
    let slots := (← get).buffers.size buffer
    (Parser.fill slots (RunState.write buffer) (p.parser rule)).map (fun _ => .unit) x
  | trace name p => (p.parser rule).traced RunState.note name
  | raise kind => fun x => return .errorAt x kind
  | commit kind => fun x => return .failureAt x kind
  | await needed => fun _ => return .needs needed
  | take n => fun x =>
    if x.length < n then return .signal (.incomplete .unknown)
    else (Parser.take n).map .slice x
  | done => fun x => return .success (.list []) x
  | andThen p rest => ((p.parser rule).andThen (rest.parser rule)).map
    fun (v, vs) => .list (v :: FoldStep.items vs)
  | orElse p q => (p.parser rule).orElse (q.parser rule)
  | ref name => rule name

end Grammar

/-- The grammars that names are bound to. A later binding of a name hides an earlier one. -/
abbrev Bindings (τ : Type) := List (String × Grammar τ)

/-- How many rules may be active at once. -/
def recursionLimit : Nat := 200

/-- The parser of a rule, with a number of further rules that may become active. -/
def Bindings.rule [Element τ] (bindings : Bindings τ) : Nat → String → Rule τ ε
  | 0, _ => fun _ => throw .tooDeep
  | depth + 1, name =>
    match bindings.lookup name with
    | some g => g.parser (bindings.rule depth)
    | none => fun _ => throw (.unbound name)

/-- The parser that a grammar means under bindings. -/
def Bindings.parser [Element τ] (bindings : Bindings τ) (g : Grammar τ) : Rule τ ε :=
  g.parser (bindings.rule recursionLimit)

end Reprise
