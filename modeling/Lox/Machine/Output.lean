/-! Where a program prints. An output accepts bytes until its room is used up; after that every write
of at least one byte fails. Flushing may fail by itself. -/

namespace Lox

/-- A destination of printed text. -/
structure Output where
  /-- The bytes accepted and not yet drained. -/
  written : ByteArray := .empty
  /-- The number of bytes still accepted; `none` is no limit. -/
  room : Option Nat := none
  /-- Whether flushing fails. -/
  flushFails : Bool := false

namespace Output

instance : Inhabited Output := ⟨{}⟩

/-- What is said when a write fails. -/
def closedReason : String := "closed"

/-- What is said when flushing fails. -/
def flushReason : String := "flush failed"

/-- Writes a text: the output takes the bytes that it has room for, and the result says whether that
was all of them. -/
def write (o : Output) (text : String) : Output × Bool :=
  let bytes := text.toUTF8
  match o.room with
  | none => ({ o with written := o.written ++ bytes }, true)
  | some room =>
    if bytes.size ≤ room then
      ({ o with written := o.written ++ bytes, room := some (room - bytes.size) }, true)
    else ({ o with written := o.written ++ bytes.extract 0 room, room := some 0 }, false)

/-- Hands out the bytes accepted so far. -/
def drain (o : Output) : ByteArray × Output := (o.written, { o with written := .empty })

end Output

end Lox
