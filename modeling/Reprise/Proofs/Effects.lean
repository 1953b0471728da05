import Reprise.Grammar.Meaning

/-!
# Effects of grammars

What a grammar does besides reading its input: it asks how large buffers are and writes to them, counts
started folds, and traces. Here a grammar gets these effects from outside, so that runs over states of
different types can be compared. With the effects on run states this is what grammars mean.
-/

namespace Reprise

variable {σ τ ε : Type}

structure Effects (σ τ ε : Type) where
  /-- How many slots a buffer has. -/
  size : String → Run σ Nat
  write : String → Nat → Value τ → Run σ Unit
  /-- Starts a fold that counts its starts. -/
  start : Run σ (Value τ)
  trace : String → Parser σ τ ε (Value τ) → Parser σ τ ε (Value τ)

def Effects.ofRunState : Effects (RunState τ ε) τ ε where
  size buffer := return (← get).buffers.size buffer
  write := RunState.write
  start := FoldStart.calls.run
  trace name p := p.traced RunState.note name

def FoldStart.runWith (E : Effects σ τ ε) : FoldStart → Run σ (Value τ)
  | zero => return .num 0
  | list => return .list []
  | unit => return .unit
  | calls => E.start

theorem FoldStart.runWith_ofRunState (start : FoldStart) :
    start.runWith (.ofRunState : Effects (RunState τ ε) τ ε) = start.run := by cases start <;> rfl

section

variable [Payload τ ε] [Element τ]

namespace Grammar

/-- The parser a grammar means, with effects from outside. -/
def parserWith (E : Effects σ τ ε) (rule : String → Parser σ τ ε (Value τ)) :
    Grammar τ → Parser σ τ ε (Value τ)
  | one => Parser.map .elem Parser.one
  | eof => Parser.map (fun _ => .unit) Parser.eof
  | epsilon => Parser.map (fun _ => .unit) Parser.epsilon
  | tag mode (.own es) => Parser.map .slice (Parser.literal mode es)
  | tag mode (.foreign vs) => Parser.map .slice (Parser.foreign mode vs)
  | takeWhile set least kind => Parser.map .slice (Parser.takeWhile set.contains least kind)
  | digits least => Parser.map .slice (Parser.digits least)
  | letters => Parser.map .slice Parser.letters
  | uint mode width order => Parser.map .num (Parser.uint mode width order)
  | opt p => Parser.map (fun | some v => .given v | none => .missing) (p.parserWith E rule).opt
  | cut p => (p.parserWith E rule).cut
  | boxed p => p.parserWith E rule
  | map f p => (p.parserWith E rule).map f.apply
  | collect times shape p => shape.use fun into finish =>
    (times.parser into (p.parserWith E rule)).map finish
  | many0Count p => (p.parserWith E rule).many0Count.map .num
  | many1Count p => (p.parserWith E rule).many1Count.map .num
  | fold times start step p => times.parser (start.runWith E) step.apply (p.parserWith E rule)
  | manyTill shape till p => shape.use fun into finish =>
    (Parser.manyTill into (p.parserWith E rule) (till.parserWith E rule)).map
      fun (held, u) => .pair (finish held) u
  | separatedList0 shape sep p => shape.use fun into finish =>
    (Parser.separatedList0 into (sep.parserWith E rule) (p.parserWith E rule)).map finish
  | separatedList1 shape sep p => shape.use fun into finish =>
    (Parser.separatedList1 into (sep.parserWith E rule) (p.parserWith E rule)).map finish
  | lengthData len => (Parser.lengthData ((len.parserWith E rule).map Value.number)).map .slice
  | lengthValue len p =>
    Parser.lengthValue ((len.parserWith E rule).map Value.number) (p.parserWith E rule)
  | lengthCount shape len p => shape.use fun into finish =>
    (Parser.lengthCount ((len.parserWith E rule).map Value.number) into (p.parserWith E rule)).map finish
  | fill buffer _ p => fun x => do
    let slots ← E.size buffer
    (Parser.fill slots (E.write buffer) (p.parserWith E rule)).map (fun _ => .unit) x
  | trace name p => E.trace name (p.parserWith E rule)
  | raise kind => fun x => return .errorAt x kind
  | commit kind => fun x => return .failureAt x kind
  | await needed => fun _ => return .needs needed
  | take n => fun x =>
    if x.length < n then return .signal (.incomplete .unknown) else (Parser.take n).map .slice x
  | done => fun x => return .success (.list []) x
  | andThen p rest => ((p.parserWith E rule).andThen (rest.parserWith E rule)).map
    fun (v, vs) => .list (v :: FoldStep.items vs)
  | orElse p q => (p.parserWith E rule).orElse (q.parserWith E rule)
  | ref name => rule name

theorem parserWith_ofRunState (rule : String → Rule τ ε) (g : Grammar τ) :
    g.parserWith .ofRunState rule = g.parser rule := by
  induction g with
  | tag mode pattern => cases pattern <;> rfl
  | _ => simp_all only [parserWith, parser, FoldStart.runWith_ofRunState] <;> rfl

end Grammar

/-- The parser of a rule, with effects from outside. -/
def Bindings.ruleWith (E : Effects σ τ ε) (bindings : Bindings τ) :
    Nat → String → Parser σ τ ε (Value τ)
  | 0, _ => fun _ => throw .tooDeep
  | depth + 1, name =>
    match bindings.lookup name with
    | some g => g.parserWith E (bindings.ruleWith E depth)
    | none => fun _ => throw (.unbound name)

theorem Bindings.ruleWith_ofRunState (bindings : Bindings τ) (depth : Nat) :
    bindings.ruleWith .ofRunState depth = (bindings.rule depth : String → Rule τ ε) := by
  induction depth with
  | zero => rfl
  | succ depth ih =>
    funext name
    simp only [Bindings.ruleWith, Bindings.rule, ih]
    cases bindings.lookup name with
    | none => rfl
    | some g => exact g.parserWith_ofRunState _

end

end Reprise
