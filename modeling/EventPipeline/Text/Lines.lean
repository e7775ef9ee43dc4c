/-!
Lines of a byte stream. A line ends at a line feed, and a carriage return before that belongs to
the line end; the last line may end with the stream.
-/

namespace EventPipeline.Text

/-- A line without the carriage return of its end, given last byte first. -/
def dropReturn : List UInt8 → List UInt8
  | 13 :: line => line
  | line => line

/-- The lines of a stream; `line` holds the start of the current one, last byte first. -/
def linesFrom (line : List UInt8) (done : List (List UInt8)) : List UInt8 → List (List UInt8)
  | [] => (if line.isEmpty then done else line.reverse :: done).reverse
  | 10 :: bytes => linesFrom [] ((dropReturn line).reverse :: done) bytes
  | b :: bytes => linesFrom (b :: line) done bytes

/-- The lines of a stream. -/
def lines (bytes : ByteArray) : List ByteArray :=
  (linesFrom [] [] bytes.toList).map fun line => ⟨line.toArray⟩

end EventPipeline.Text
