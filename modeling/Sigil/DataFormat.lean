namespace Sigil

/-- A data format, or a category of formats. -/
inductive DataFormat where
  | any
  | binary
  | elf
  | elfObject
  | elfExecutable
  | audio
  | mp3
  | wav
  | image
  | bmp
  | gif
  | jpeg
  | png
  | tiff
  | video
  | matroska
  | compressed
  | bzip2
  | compress
  | gzip
  | lzma
  | xz
  | zip
  | archive
  | ar
  | tar
  | text
  | ascii
  | xml
  | html
  | build
  | makefile
  | cmake
  | sourceCode
  | c
  | cSource
  | cHeader
  | cxx
  | cxxSource
  | cxxHeader
  | python
  | shell
deriving DecidableEq

namespace DataFormat

def all : List DataFormat :=
  [any, binary, elf, elfObject, elfExecutable, audio, mp3, wav, image, bmp, gif, jpeg, png,
    tiff, video, matroska, compressed, bzip2, compress, gzip, lzma, xz, zip, archive, ar, tar,
    text, ascii, xml, html, build, makefile, cmake, sourceCode, c, cSource, cHeader, cxx,
    cxxSource, cxxHeader, python, shell]

def category? : DataFormat → Option DataFormat
  | any => none
  | binary | audio | image | video | compressed | archive | text | build | sourceCode => some any
  | elf => some binary
  | elfObject | elfExecutable => some elf
  | mp3 | wav => some audio
  | bmp | gif | jpeg | png | tiff => some image
  | matroska => some video
  | bzip2 | compress | gzip | lzma | xz | zip => some compressed
  | ar | tar => some archive
  | ascii | xml | html => some text
  | makefile | cmake => some build
  | c | cxx | python | shell => some sourceCode
  | cSource | cHeader => some c
  | cxxSource | cxxHeader => some cxx

/-- The format followed by the categories above it, up to `any`. The tree is four levels deep. -/
def lineage (format : DataFormat) : List DataFormat :=
  climb 4 format
where
  climb : Nat → DataFormat → List DataFormat
    | 0, _ => []
    | depth + 1, f => f :: (f.category?.map (climb depth)).getD []

/-- The other format is this one or belongs to it, directly or through categories between them. -/
def contains (format other : DataFormat) : Bool := other.lineage.contains format

def isAudio (format : DataFormat) : Bool := audio.contains format
def isImage (format : DataFormat) : Bool := image.contains format
def isVideo (format : DataFormat) : Bool := video.contains format
def isCompressed (format : DataFormat) : Bool := compressed.contains format
def isSource (format : DataFormat) : Bool := sourceCode.contains format

def label : DataFormat → String
  | any => "any"
  | binary => "binary"
  | elf => "elf"
  | elfObject => "elf-object"
  | elfExecutable => "elf-executable"
  | audio => "audio"
  | mp3 => "mp3"
  | wav => "wav"
  | image => "image"
  | bmp => "bmp"
  | gif => "gif"
  | jpeg => "jpeg"
  | png => "png"
  | tiff => "tiff"
  | video => "video"
  | matroska => "matroska"
  | compressed => "compressed"
  | bzip2 => "bzip2"
  | compress => "compress"
  | gzip => "gzip"
  | lzma => "lzma"
  | xz => "xz"
  | zip => "zip"
  | archive => "archive"
  | ar => "ar"
  | tar => "tar"
  | text => "text"
  | ascii => "ascii"
  | xml => "xml"
  | html => "html"
  | build => "build"
  | makefile => "makefile"
  | cmake => "cmake"
  | sourceCode => "source-code"
  | c => "c"
  | cSource => "c-source"
  | cHeader => "c-header"
  | cxx => "cxx"
  | cxxSource => "cxx-source"
  | cxxHeader => "cxx-header"
  | python => "python"
  | shell => "shell"

/-- The name of the format in stored data. It is the label, but for a hyphen in one of them. -/
def name : DataFormat → String
  | cmake => "c-make"
  | format => format.label

def ofName? (s : String) : Option DataFormat := all.find? (·.name == s)

/-- No category is missing from a lineage. -/
theorem lineage_complete (format : DataFormat) : format.lineage.getLast? = some any := by
  cases format <;> rfl

theorem ofName?_name (format : DataFormat) : ofName? format.name = some format := by
  cases format <;> decide

end DataFormat

end Sigil
