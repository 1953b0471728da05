import Reprise.Outcome.Diagnostic
import Reprise.Parser
import Reprise.Source.Preview

/-!
# Tracing

A traced parser writes down when it starts and how it ends, and changes nothing else. A run that
stops early leaves the started parsers open.
-/

namespace Reprise

inductive Event (τ ε : Type) where
  | start (name : String) (input : Window τ)
  | success (name : String) (rest : Window τ)
  | failure (name : String) (input : Window τ) (signal : Signal ε)

namespace Event

variable {τ ε : Type}

def name : Event τ ε → String
  | start name _ => name
  | success name _ => name
  | failure name _ _ => name

/-- The window an event is about. -/
def window : Event τ ε → Window τ
  | start _ x => x
  | success _ x => x
  | failure _ x _ => x

/-- One line of the log. -/
def render [Element τ] [Described τ ε] (e : Event τ ε) : String :=
  let what := match e with
    | start name x => "  start   " ++ name ++ "; current " ++ x.preview Window.defaultPreview
    | success name x => "  success " ++ name ++ "; next " ++ x.preview Window.defaultPreview
    | failure name x s => "  failure " ++ name ++ "; " ++ s.describe x
  toString e.window.length ++ what ++ "\n"

end Event

/-- Writes the start and the end of each application of a parser. -/
def Parser.traced {σ τ ε α : Type} (write : Event τ ε → Run σ Unit) (name : String)
    (p : Parser σ τ ε α) : Parser σ τ ε α := fun x => do
  write (.start name x)
  let o ← p x
  match o with
  | .success _ rest => write (.success name rest)
  | .signal s => write (.failure name x s)
  return o

end Reprise
