import Lox.Number.Text
import Lox.Storage.Object
import Lox.Storage.Table

/-! The heap. Objects are allocated one after the other and all freed at once; each one links to the
one allocated before it, so the whole heap can be walked from the newest object. Strings are
interned: equal strings are one object, so that equality of strings is equality of handles. -/

namespace Lox

/-- An allocated object and the link to the one allocated before it. -/
structure Cell where
  object : Object
  /-- The object allocated before this one. -/
  next : Option Handle

/-- The objects of a machine. -/
structure Heap where
  /-- The cells, by handle. -/
  cells : Array Cell := #[]
  /-- The object allocated last. -/
  newest : Option Handle := none
  /-- The interned strings; only the keys matter. -/
  strings : Table := .empty
  /-- The bytes of the live objects, headers included. -/
  allocated : Nat := 0
  /-- The number of live objects. -/
  live : Nat := 0
  /-- What each object counts for beside its contents. -/
  header : Header

namespace Heap

/-- The heap without objects, for objects that have such a header. -/
def new (header : Header) : Heap := { header }

/-- The heap without objects. Only the count of bytes depends on the header, and one byte is a header. -/
def empty : Heap := new ⟨1, Nat.one_pos⟩

instance : Inhabited Heap := ⟨empty⟩

/-- The object that a handle denotes, if it is alive. -/
def get? (h : Heap) (handle : Handle) : Option Object := (h.cells[handle.index]?).map (·.object)

/-- The string that a handle denotes, if it denotes one. -/
def string? (h : Heap) (handle : Handle) : Option StringObject :=
  match h.get? handle with
  | some (.string s) => some s
  | _ => none

/-- The function that a handle denotes, if it denotes one. -/
def function? (h : Heap) (handle : Handle) : Option FunctionObject :=
  match h.get? handle with
  | some (.function f) => some f
  | _ => none

/-- The host function that a handle denotes, if it denotes one. -/
def native? (h : Heap) (handle : Handle) : Option NativeObject :=
  match h.get? handle with
  | some (.native n) => some n
  | _ => none

/-- The table key of a string object. -/
def key? (h : Heap) (handle : Handle) : Option Key :=
  (h.string? handle).map fun s => { handle, hash := s.hash }

/-- Whether a value is a string. -/
def isString (h : Heap) : Value → Bool
  | .object handle => (h.string? handle).isSome
  | _ => false

/-- Allocates an object at the next free place. -/
def allocate (h : Heap) (object : Object) : Heap × Handle :=
  let handle : Handle := ⟨h.cells.size⟩
  let size := object.size h.header
  ({ h with
      cells := h.cells.push { object, next := h.newest }
      newest := some handle
      allocated := h.allocated + size
      live := h.live + 1 }, handle)

/-- The string object with the given characters, found by their hash. -/
def findString? (h : Heap) (chars : String) (hash : UInt32) : Option Handle :=
  h.strings.findContent? hash fun handle =>
    match h.string? handle with
    | some s => s.chars == chars
    | none => false

/-- The string object with the given characters, if there is one. -/
def interned? (h : Heap) (chars : String) : Option Handle := h.findString? chars (Text.hash chars)

/-- The string object with the given characters: the one that exists, or else a new one. -/
def intern (h : Heap) (chars : String) : Heap × Handle :=
  let hash := Text.hash chars
  match h.findString? chars hash with
  | some handle => (h, handle)
  | none =>
    let (h, handle) := h.allocate (.string { chars, hash })
    ({ h with strings := (h.strings.set { handle, hash } .nil).1 }, handle)

/-- The bytes of the live objects without their headers, which are the same on every computer. -/
def bytes (h : Heap) : Nat := h.allocated - h.live * h.header

/-- The number of interned strings. -/
def internedCount (h : Heap) : Nat := h.strings.size

/-- The objects from a link on, newest first, at most so many. -/
def walk (h : Heap) : Nat → Option Handle → List (Handle × Object)
  | 0, _ => []
  | _, none => []
  | count + 1, some handle =>
    match h.cells[handle.index]? with
    | none => []
    | some cell => (handle, cell.object) :: h.walk count cell.next

/-- The live objects, newest first. -/
def objects (h : Heap) : List (Handle × Object) := h.walk h.cells.size h.newest

/-- Frees all objects, and says how many they were. The next object gets the first handle again. -/
def free (h : Heap) : Heap × Nat :=
  let freed := h.objects
  let allocated := freed.foldl (fun bytes entry => bytes - entry.2.size h.header) h.allocated
  ({ new h.header with strings := h.strings.clear, allocated }, freed.length)

/-- The name of a function: the characters of its name, if that is a string. -/
def functionName? (h : Heap) (f : FunctionObject) : Option String :=
  (f.name.bind h.string?).map (·.chars)

/-- The text of a function: its name in angle brackets, or the script. -/
def functionText (h : Heap) (f : FunctionObject) : String :=
  match h.functionName? f with
  | some name => "<fn " ++ name ++ ">"
  | none => "<script>"

/-- The text of a value, as it is printed. -/
def display (h : Heap) : Value → String
  | .nil => "nil"
  | .bool truth => if truth then "true" else "false"
  | .number x => Number.toText x
  | .object handle =>
    match h.get? handle with
    | some (.string s) => s.chars
    | some (.function f) => h.functionText f
    | some (.native _) => "<native fn>"
    | none => "<freed object>"

end Heap

end Lox
