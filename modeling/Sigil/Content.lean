import Sigil.Config
import Sigil.Tree.Match

namespace Sigil

structure File where
  bytes : Buffer
  /-- The file is open for writing alone, so that its bytes can be neither mapped nor read. -/
  writeOnly : Bool := false

/-- Why `length` bytes at `offset` of a file cannot be had. -/
inductive ContentError where
  | map (offset length : Nat)
  | read (offset length : Nat)
deriving DecidableEq

def pageSize : Nat := 4096

/-- The bits of a file of `sizeBits` bits in which a pattern with the given lengths of instances can
match within the region, if it can at all. A search may start anywhere in the region. -/
def contentWindow (sample region : BitRange) (sizeBits : Nat) (mode : MatchMode) :
    Option BitRange :=
  if ¬ sample.Defined ∨ ¬ region.Defined ∨ sizeBits < region.low then none
  else
    let reach := if mode.IsAnchored then satAdd region.low sample.high else region.high
    some ⟨region.low, min (min reach region.high) sizeBits⟩

/-- The byte where loading begins for a window: a boundary of pages of `page` bytes, with a byte or
more before the window unless the file begins there. -/
def loadStart (window : BitRange) (page : Nat) : Nat := (Offset.toByte window.low - 1) / page * page

/-- The byte where loading stops for a window of a file of `size` bytes. -/
def loadStop (window : BitRange) (size : Nat) : Nat :=
  min (Offset.byteCount (satAdd window.high 8)) size

namespace File

def read (file : File) (offset length : Nat) : Except ContentError Buffer :=
  if file.writeOnly ∨ file.bytes.size < offset + length then .error (.read offset length)
  else .ok (file.bytes.extract offset (offset + length))

/-- Loads `length` bytes, as the configuration says. No bytes are loaded without looking at the
file. -/
def load (file : File) (offset length : Nat) (config : ContentConfig) :
    Except ContentError Buffer :=
  if length = 0 then .ok #[]
  else if config.useMmap ∧ ¬ file.writeOnly then
    .ok (file.bytes.extract offset (offset + length))
  else if config.useMmap ∧ ¬ config.readFallback then .error (.map offset length)
  else file.read offset length

/-- The size to go by. A given size is trusted where the file is read; a map ends where the file
does. -/
def sizeFor (file : File) (size : Option Nat) (config : ContentConfig) : Nat :=
  match size with
  | none => file.bytes.size
  | some size => if config.useMmap then min size file.bytes.size else size

end File

namespace Tree

/-- Matches a region of a file, of which the window is loaded in whole pages of `page` bytes at its
start. The hit is relative to the whole file. -/
def matchFile (t : Tree Note) (file : File) (size : Option Nat) (region : BitRange)
    (mode : MatchMode) (config : ContentConfig) (page : Nat) : Except ContentError (Option Hit) :=
  let size := file.sizeFor size config
  match contentWindow t.sample region (Offset.ofBytes size) mode with
  | none => .ok none
  | some window => do
    let start := loadStart window page
    let data ← file.load start (loadStop window size - start) config
    let base := Offset.ofBytes start
    let hit := t.matchIn data ⟨window.low - base, window.high - base⟩ mode
    return hit.map (·.shift base)

end Tree

namespace Pool

def matchFile (p : Pool) (id : PatternId) (file : File) (size : Option Nat) (region : BitRange)
    (mode : MatchMode) (config : ContentConfig) (page : Nat) : Except ContentError (Option Hit) :=
  match p.tree? id with
  | none => .ok none
  | some t => t.matchFile file size region mode config page

end Pool

end Sigil
