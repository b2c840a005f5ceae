import MonkeyLang.Assoc
import MonkeyLang.Text.Quoted
import MonkeyLang.Value.Basic

/-!
# The store

What an evaluation changes: the frames in which names are bound, the serial number for the next
object, and what has been printed.

A frame belongs to the frame it was made in, its outer frame, which is older and has a smaller
number.  The frames from one frame outwards are its `chain`.  A name is looked up along the chain
and bound in the first frame only, so that inner bindings hide outer ones and never change them.
-/

namespace MonkeyLang

/-- Bindings of names, and the frame around them. -/
structure Frame where
  outer : Option FrameId
  bindings : List (String × Value)

/-- The frames, the serial number of the next object, and the lines printed. -/
structure Store where
  frames : Array Frame
  nextId : ObjectId
  output : Array String

namespace Store

/-- The number of the frame for the bindings of a program. -/
def global : FrameId := 0

/-- The store with one empty frame. -/
def initial : Store := ⟨#[⟨none, []⟩], 0, #[]⟩

/-- The bindings of a frame. -/
def bindings (store : Store) (frame : FrameId) : List (String × Value) :=
  (store.frames[frame]?.map Frame.bindings).getD []

/-- The frame around a frame. -/
def outer? (store : Store) (frame : FrameId) : Option FrameId :=
  store.frames[frame]?.bind Frame.outer

/-- A frame, the frame around it, and so on to the outermost one. -/
def chain (store : Store) (frame : FrameId) : List FrameId :=
  match store.outer? frame with
  | some outer => if outer < frame then frame :: store.chain outer else [frame]
  | none => [frame]

/-- The value of a name, from the first frame of the chain that binds it. -/
def lookup (store : Store) (frame : FrameId) (name : String) : Option Value :=
  (store.chain frame).findSome? fun f => Assoc.find? name (store.bindings f)

/-- Binds a name in a frame. -/
def bind (store : Store) (frame : FrameId) (name : String) (value : Value) : Store :=
  { store with
    frames := store.frames.modify frame fun f =>
      { f with bindings := Assoc.insert name value f.bindings } }

/-- Makes an empty frame inside another one or outside of all. -/
def addFrame (store : Store) (outer : Option FrameId) : FrameId × Store :=
  (store.frames.size, { store with frames := store.frames.push ⟨outer, []⟩ })

/-- Makes an empty frame inside a given one. -/
def enclose (store : Store) (frame : FrameId) : FrameId × Store :=
  store.addFrame (some frame)

/-- Tells whether a name has a value in a frame or around it. -/
def binds (store : Store) (frame : FrameId) (name : String) : Bool :=
  match store.lookup frame name with
  | some .nothing | none => false
  | some _ => true

/-- The names bound in a frame, in the order of code points, and the number of frames around it. -/
def summary (store : Store) (frame : FrameId) : String :=
  let names := (Assoc.keys (store.bindings frame)).mergeSort fun a b => !decide (b < a)
  "<Environment names=[" ++ ", ".intercalate (names.map Text.quoted) ++ "] depth=" ++
    toString ((store.chain frame).length - 1) ++ ">"

/-- Takes the next serial number. -/
def allocate (store : Store) : ObjectId × Store :=
  (store.nextId, { store with nextId := store.nextId + 1 })

/-- Prints a line. -/
def print (store : Store) (line : String) : Store :=
  { store with output := store.output.push line }

/-- What has been printed, each item on a line of its own. -/
def printed (store : Store) : String :=
  String.join (store.output.toList.map (· ++ "\n"))

/-- The store with nothing printed yet. -/
def forgetOutput (store : Store) : Store :=
  { store with output := #[] }

end Store

end MonkeyLang
