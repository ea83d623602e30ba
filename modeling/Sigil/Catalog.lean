import Sigil.Registry

namespace Sigil

namespace Catalog

def ascii (s : String) : List UInt8 := s.toList.map fun c => UInt8.ofNat c.toNat

/-! ## Shapes of patterns -/

/-- Matches some bytes at the beginning of the contents, and the given patterns after them. -/
def magic (bytes : List UInt8) (rest : List PatternId) : Edit PatternId := do
  let start ← Edit.anchor .bufferStart
  let body ← Edit.lit bytes
  Edit.seq (start :: body :: rest)

/-- Matches the names that end in a dot and one of the given extensions. -/
def extensions (exts : List String) : Edit PatternId := do
  Edit.alt (← exts.mapM fun ext => Edit.endingWith (ascii ("." ++ ext)))

def namesNocase (names : List String) : Edit PatternId := do
  Edit.alt (← names.mapM fun name => do
    let start ← Edit.anchor .bufferStart
    let body ← Edit.litNocase (ascii name)
    let stop ← Edit.anchor .bufferEnd
    Edit.seq [start, body, stop])

/-- Matches contents that begin with one of the given interpreter lines. -/
def shebangs (lines : List String) : Edit PatternId := do
  Edit.alt (← lines.mapM fun line => magic (ascii ("#!" ++ line)) [])

/-- Matches the header of a tar archive, which has its magic number at byte 257 and two versions of
what follows. -/
def tarHeader : Edit PatternId := do
  let start ← Edit.anchor .bufferStart
  let header ← Edit.any (257 * 8)
  let ustar ← Edit.lit (ascii "ustar")
  let posix ← Edit.lit [0x00, 0x30, 0x30]
  let gnu ← Edit.lit [0x20, 0x20, 0x00]
  let version ← Edit.alt [posix, gnu]
  Edit.seq [start, header, ustar, version]

def gifHeader : Edit PatternId := do
  let v87 ← Edit.lit (ascii "7a")
  let v89 ← Edit.lit (ascii "9a")
  let version ← Edit.alt [v87, v89]
  magic (ascii "GIF8") [version]

def elfHeader : Edit PatternId := do
  let wordSize ← Edit.range 1 2
  let byteOrder ← Edit.range 1 2
  magic [0x7F, 0x45, 0x4C, 0x46] [wordSize, byteOrder]

/-! ## The types -/

/-- A type that is recognized by how its contents begin. -/
structure Magic where
  name : String
  doc : String
  format : DataFormat
  pattern : Edit PatternId
  ops : List Operation

def magics : List Magic := [
  ⟨"gzip", "GNU zip compressed data", .gzip, magic [0x1F, 0x8B] [], [.decompress]⟩,
  ⟨"compress", "Unix compress data", .compress, magic [0x1F, 0x9D] [], [.decompress]⟩,
  ⟨"bzip2", "bzip2 compressed data", .bzip2,
    do magic (ascii "BZh") [← Edit.range 0x31 0x39], [.decompress]⟩,
  ⟨"xz", "XZ compressed data", .xz, magic [0xFD, 0x37, 0x7A, 0x58, 0x5A, 0x00] [], [.decompress]⟩,
  ⟨"lzma", "LZMA compressed data", .lzma, magic [0x5D, 0x00, 0x00] [], [.decompress]⟩,
  ⟨"zip", "Zip archive", .zip, magic [0x50, 0x4B, 0x03, 0x04] [], [.decompress, .extract]⟩,
  ⟨"tar", "POSIX tar archive", .tar, tarHeader, [.extract]⟩,
  ⟨"png", "Portable Network Graphics", .png,
    magic [0x89, 0x50, 0x4E, 0x47, 0x0D, 0x0A, 0x1A, 0x0A] [], [.view, .convert]⟩,
  ⟨"jpeg", "JPEG image", .jpeg, magic [0xFF, 0xD8, 0xFF] [], [.view, .convert]⟩,
  ⟨"gif", "Graphics Interchange Format", .gif, gifHeader, [.view, .convert]⟩,
  ⟨"elf", "Executable and Linkable Format", .elf, elfHeader, [.execute]⟩]

def registerBuilt (t : FileType) : Registering Unit := do
  match t.build with
  | .error e => throw e
  | .ok built => let _ ← Registry.register built

def registerMagic (m : Magic) (pattern : PatternId) : Registering Unit := do
  Registry.onPool (Edit.setName pattern m.name)
  Registry.onPool (Edit.setFormat pattern m.format)
  registerBuilt { name := m.name, doc := some m.doc, format := m.format,
                  contentPattern := some pattern, ops := m.ops }

/-- The patterns for sources and scripts, by name and by contents. -/
structure ScriptPatterns where
  cNames : PatternId
  cxxNames : PatternId
  pythonNames : PatternId
  pythonLines : PatternId
  shellNames : PatternId
  shellLines : PatternId
  makeNames : PatternId

def scriptPatterns : Edit ScriptPatterns := do
  let cNames ← extensions ["c", "h"]
  Edit.setName cNames "C file name"
  let cxxNames ← extensions ["cc", "cpp", "cxx", "c++", "hh", "hpp", "hxx"]
  Edit.setName cxxNames "C++ file name"
  let pythonNames ← extensions ["py"]
  let pythonLines ←
    shebangs ["/usr/bin/python", "/usr/bin/env python", "/usr/local/bin/python"]
  let shellNames ← extensions ["sh", "bash"]
  let shellLines ← shebangs ["/bin/sh", "/bin/bash", "/usr/bin/env sh", "/usr/bin/env bash"]
  let makeNames ← namesNocase ["makefile", "gnumakefile"]
  Edit.setName makeNames "Makefile name"
  return { cNames, cxxNames, pythonNames, pythonLines, shellNames, shellLines, makeNames }

def scriptTypes (p : ScriptPatterns) : List FileType := [
  { name := "c", doc := some "C source code", format := .c,
    namePattern := some p.cNames, ops := [.edit, .compile] },
  { name := "c++", doc := some "C++ source code", format := .cxx,
    namePattern := some p.cxxNames, ops := [.edit, .compile] },
  { name := "python", doc := some "Python script", format := .python, policy := .either,
    namePattern := some p.pythonNames, contentPattern := some p.pythonLines,
    ops := [.edit, .execute] },
  { name := "shell", doc := some "Shell script", format := .shell, policy := .either,
    namePattern := some p.shellNames, contentPattern := some p.shellLines,
    ops := [.edit, .execute] },
  { name := "makefile", doc := some "Makefile", format := .makefile,
    namePattern := some p.makeNames, ops := [.edit, .execute] }]

def registerAll : Registering Unit := do
  let patterns ← Registry.onPool (magics.mapM (·.pattern))
  for (m, pattern) in magics.zip patterns do
    registerMagic m pattern
  let scripts ← Registry.onPool scriptPatterns
  for t in scriptTypes scripts do
    registerBuilt t

def registry (config : Config) : Except PatternError Registry :=
  match registerAll (.ofConfig config) with
  | .ok () r => .ok r
  | .error e _ => .error e

end Catalog

end Sigil
