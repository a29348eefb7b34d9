import Lox.Cli.Terminal
import Lox.Machine.Clock

/-! Surroundings as plain data. The files of a scene lie in and around a working directory. A path is
followed name by name: the place reached so far must be a directory before the next name is looked
at, also if that name is a dot, and a slash at the end asks for a directory as well. Beside its files a
scene has the devices that stand for the standard streams and for nothing. -/

namespace Lox

/-- A place in the tree of files, as the names that lead to it from the working directory. What lies
above that directory starts with double dots, and an absolute place starts with a slash. -/
abbrev Names := List String

/-- A file that is no stored text. -/
inductive Device where
  /-- What is written is lost, and nothing can be read. -/
  | null
  | input
  | output
  | error
  deriving DecidableEq, Repr

/-- Surroundings as plain data. -/
structure Scene where
  /-- The files, by place. -/
  files : List (Names × ByteArray) := []
  /-- The input still to be read. -/
  input : ByteArray := .empty
  out : ByteArray := .empty
  err : String := ""
  /-- The clock. It says the seconds since the start of 1970. -/
  clock : Clock := 0

namespace Scene

/-- What a place holds. -/
inductive Node where
  | file (bytes : ByteArray)
  | device (d : Device)
  | directory
  | nothing

/-- The devices, by place. The standard streams have a name, and a number among the open files. -/
def devices : List (Names × Device) :=
  [(["/", "dev", "null"], .null),
   (["/", "dev", "stdin"], .input), (["/", "dev", "fd", "0"], .input),
   (["/", "proc", "self", "fd", "0"], .input),
   (["/", "dev", "stdout"], .output), (["/", "dev", "fd", "1"], .output),
   (["/", "proc", "self", "fd", "1"], .output),
   (["/", "dev", "stderr"], .error), (["/", "dev", "fd", "2"], .error),
   (["/", "proc", "self", "fd", "2"], .error)]

/-- The directories that are found below every root. -/
def commonDirectories : List String :=
  ["bin", "boot", "dev", "etc", "home", "lib", "media", "mnt", "opt", "proc", "root", "run", "sbin",
   "srv", "sys", "tmp", "usr", "var"]

/-- The greatest number of bytes in a name. -/
def maxName : Nat := 255

/-- The number of bytes that no path reaches. -/
def maxPath : Nat := 4096

/-- The names in a path. -/
def namesOf (path : String) : Names :=
  ((path.split (· == '/')).toList.map (·.toString)).filter (· ≠ "")

/-- Whether a place is a directory whatever the files are: the working directory, one above it, the
root, or one of the common directories below the root. -/
def isStanding (place : Names) : Bool :=
  match place with
  | ["/"] => true
  | ["/", name] => commonDirectories.contains name
  | place => place.all (· == "..")

/-- Whether a place lies strictly inside another one. -/
def inside (directory place : Names) : Bool :=
  directory.isPrefixOf place && directory.length < place.length

/-- What a place holds. A place is a directory if something lies inside it. -/
def nodeAt (s : Scene) (place : Names) : Node :=
  if isStanding place then .directory
  else
    match s.files.lookup place, devices.lookup place with
    | some bytes, _ => .file bytes
    | none, some device => .device device
    | none, none =>
      if (s.files.map (·.1) ++ devices.map (·.1)).any (inside place) then .directory else .nothing

/-- The place that a name leads to from a directory. -/
def enter (place : Names) (name : String) : Except FileError Names :=
  if name = "." then .ok place
  else if name = ".." then
    if place == ["/"] then .ok place
    else if place.all (· == "..") then .ok (place ++ [".."])
    else .ok place.dropLast
  else if maxName < name.utf8ByteSize then .error .nameTooLong
  else .ok (place ++ [name])

/-- Follows names from a place. Each of them must start from a directory; the last one may lead to
nothing. -/
def follow (s : Scene) (place : Names) : List String → Except FileError Names
  | [] => .ok place
  | name :: rest =>
    match s.nodeAt place with
    | .nothing => .error .notFound
    | .file _ | .device _ => .error .notDirectory
    | .directory => do s.follow (← enter place name) rest

/-- The place that a path leads to, by way of the given names. -/
def resolve (s : Scene) (path : String) (names : List String) : Except FileError Names :=
  if maxPath ≤ path.utf8ByteSize then .error .nameTooLong
  else s.follow (if path.startsWith "/" then ["/"] else []) names

/-- The bytes of the file at a path, and the scene after reading them. A file can be read again; the
input is used up, for all who read it later, by whatever name. -/
def read (s : Scene) (path : String) : Except FileError (ByteArray × Scene) := do
  let names := if path.endsWith "/" then namesOf path ++ ["."] else namesOf path
  match s.nodeAt (← s.resolve path names) with
  | .file bytes => return (bytes, s)
  | .device .input => return (s.input, { s with input := .empty })
  | .device _ => return (.empty, s)
  | .directory => throw .isDirectory
  | .nothing => throw .notFound

/-- Sets the bytes of a file. -/
def store (s : Scene) (place : Names) (bytes : ByteArray) : Scene :=
  { s with files := (place, bytes) :: s.files.filter (·.1 != place) }

/-- Opens a file at its end, and creates it if there is none. A path that ends in a slash names no
file, and that is noticed once its directory is found. -/
def openAtEnd (s : Scene) (path : String) : Except FileError Scene := do
  if path.endsWith "/" then
    let _ ← s.resolve path ((namesOf path).dropLast ++ ["."])
    throw .isDirectory
  else
    let place ← s.resolve path (namesOf path)
    match s.nodeAt place with
    | .file _ | .device _ => return s
    | .directory => throw .isDirectory
    | .nothing => return s.store place .empty

/-- Appends to a file. -/
def append (s : Scene) (path : String) (text : String) : Scene :=
  match s.resolve path (namesOf path) with
  | .error _ => s
  | .ok place =>
    match s.nodeAt place with
    | .file bytes => s.store place (bytes ++ text.toUTF8)
    | .device .output => { s with out := s.out ++ text.toUTF8 }
    | .device .error => { s with err := s.err ++ text }
    | _ => s

/-- The number of bytes up to and including the first newline, and of all bytes if there is none. -/
def lineLength : Nat → List UInt8 → Nat
  | n, [] => n
  | n, byte :: rest => if byte = 10 then n + 1 else lineLength (n + 1) rest

/-- The terminal of a scene. -/
def terminal : Terminal (StateM Scene) where
  readFile path := do
    match (← get).read path with
    | .ok (bytes, s) =>
      set s
      return .ok bytes
    | .error e => return .error e
  openLog path := do
    match (← get).openAtEnd path with
    | .ok s =>
      set s
      return .ok ()
    | .error e => return .error e
  appendLog path text := modify (·.append path text)
  readLine := do
    let s ← get
    let length := lineLength 0 s.input.data.toList
    set { s with input := s.input.extract length s.input.size }
    return s.input.extract 0 length
  writeOut bytes := modify fun s => { s with out := s.out ++ bytes }
  writeErr text := modify fun s => { s with err := s.err ++ text }
  readClock := modifyGet fun s => (s.clock.now, { s with clock := s.clock.next })

end Scene

end Lox
