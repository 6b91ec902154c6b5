/-!
# Output

Where printed text goes: it is collected, discarded, or sent to the console. Only collected text
can be read back.

Main statements: `output_print`, printing adds to the end, and `output_take`, taking leaves nothing.
-/

namespace Treewalk

/-- Where printed text goes. -/
inductive Sink where
  | buffer
  | silent
  | console
  deriving DecidableEq, Repr

/-- A sink with the text collected so far. -/
structure Output where
  sink : Sink
  collected : String
  deriving DecidableEq, Repr

namespace Output

/-- A sink that nothing was printed to. -/
def ofSink (sink : Sink) : Output := ⟨sink, ""⟩

/-- Prints text. -/
def print (o : Output) (text : String) : Output :=
  match o.sink with
  | .buffer => ⟨.buffer, o.collected ++ text⟩
  | sink => ⟨sink, o.collected⟩

/-- Prints text and the end of a line. -/
def printLine (o : Output) (text : String) : Output := o.print (text ++ "\n")

/-- The text that can be read back. -/
def output (o : Output) : String :=
  match o.sink with
  | .buffer => o.collected
  | _ => ""

/-- Forgets the collected text. -/
def clear (o : Output) : Output := ⟨o.sink, ""⟩

/-- The text that can be read back, and the output without it. -/
def take (o : Output) : String × Output := (o.output, o.clear)

theorem output_print (o : Output) (text : String) (h : o.sink = .buffer) :
    (o.print text).output = o.output ++ text := by
  simp [print, output, h]

@[simp] theorem output_take (o : Output) : o.take.2.output = "" := by
  cases o with
  | mk sink collected => cases sink <;> rfl

end Output

end Treewalk
