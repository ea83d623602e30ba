import Sigil.Catalog
import Sigil.Proofs.Pool.Anchored
import Sigil.Proofs.Registry.Headers

namespace Sigil

/-! ## Rules -/

namespace Rule

def beginsAny (magics : List (List UInt8)) : Rule := fun contents => magics.any (begins · contents)

def byteAt (i : Nat) (cls : UInt8 → Bool) : Rule := fun contents => contents[i]?.any cls

@[simp] theorem begins_iff {b contents : List UInt8} : begins b contents = true ↔ b <+: contents :=
  List.isPrefixOf_iff_prefix

end Rule

theorem append_prefix_iff {a b contents : List UInt8} :
    a ++ b <+: contents ↔ a <+: contents ∧ b <+: contents.drop a.length := by
  constructor
  · rintro ⟨rest, rfl⟩
    rw [List.append_assoc, List.drop_left]
    exact ⟨List.prefix_append .., List.prefix_append ..⟩
  · rintro ⟨⟨rest, rfl⟩, hb⟩
    rw [List.drop_left] at hb
    exact (List.prefix_append_right_inj a).2 hb

theorem le_length_of_prefix_drop {b contents : List UInt8} {n : Nat} (hne : b ≠ [])
    (h : b <+: contents.drop n) : n ≤ contents.length := by
  have hle := h.length_le
  have hpos := List.length_pos_iff.2 hne
  rw [List.length_drop] at hle
  omega

namespace Taker

variable {take : Taker} {takers : List Taker} {contents : List UInt8} {n : Nat}

@[simp] theorem isSome_exactly {b : List UInt8} :
    (exactly b contents).isSome = true ↔ b <+: contents := by
  simp [exactly]

@[simp] theorem isSome_count : (count n contents).isSome = true ↔ n ≤ contents.length := by
  simp [count]

@[simp] theorem isSome_one {cls : UInt8 → Bool} :
    (one cls contents).isSome = true ↔ contents.head?.any cls = true := by
  simp [one]

@[simp] theorem isSome_first :
    (first takers contents).isSome = true ↔ ∃ take ∈ takers, (take contents).isSome = true := by
  simp [first]

/-- What comes after a taker of as many bytes begins there. -/
theorem isSome_inTurn_cons (hn : ∀ m ∈ take contents, m = n) :
    (inTurn (take :: takers) contents).isSome = true ↔
      (take contents).isSome = true ∧ (inTurn takers (contents.drop n)).isSome = true := by
  rw [inTurn]
  cases htake : take contents with
  | none => simp
  | some m =>
    obtain rfl := hn m htake
    simp

@[simp] theorem isSome_inTurn_exactly {b : List UInt8} :
    (inTurn (exactly b :: takers) contents).isSome = true ↔
      b <+: contents ∧ (inTurn takers (contents.drop b.length)).isSome = true := by
  rw [isSome_inTurn_cons (n := b.length) (by simp [exactly]), isSome_exactly]

@[simp] theorem isSome_inTurn_count :
    (inTurn (count n :: takers) contents).isSome = true ↔
      n ≤ contents.length ∧ (inTurn takers (contents.drop n)).isSome = true := by
  rw [isSome_inTurn_cons (n := n) (by simp [count]), isSome_count]

@[simp] theorem isSome_inTurn_one {cls : UInt8 → Bool} :
    (inTurn (one cls :: takers) contents).isSome = true ↔
      contents.head?.any cls = true ∧ (inTurn takers (contents.drop 1)).isSome = true := by
  rw [isSome_inTurn_cons (n := 1) (by simp [one]), isSome_one]

end Taker

/-! ## Headers -/

namespace Shape

open Catalog (ascii)
open Matcher (inRange)

variable {b : List UInt8} {rest : List Shape} {takers : List Taker} {lines : List String}

def magic (b : List UInt8) (rest : List Shape) : Shape :=
  .node () (.seq (anchor .bufferStart :: bytes b :: rest))

def bzip2 : Shape := magic (ascii "BZh") [Builtin.bytes 0x31 0x39]

def elf : Shape := magic [0x7F, 0x45, 0x4C, 0x46] [Builtin.bytes 1 2, Builtin.bytes 1 2]

def gif : Shape := magic (ascii "GIF8") [.node () (.alt [bytes (ascii "7a"), bytes (ascii "9a")])]

def tar : Shape :=
  .node () (.seq [anchor .bufferStart, .node () (.any (8 * 257)), bytes (ascii "ustar"),
    .node () (.alt [bytes [0x00, 0x30, 0x30], bytes [0x20, 0x20, 0x00]])])

def wholeNocase (b : List UInt8) : Shape :=
  .node () (.seq [anchor .bufferStart, .node () (.lit ⟨.ofBytes b, true, false⟩),
    anchor .bufferEnd])

def shebang (lines : List String) : Shape :=
  .node () (.alt (lines.map fun line => magic (ascii ("#!" ++ line)) []))

theorem takes_byte (lo hi : UInt8) : Tree.Takes (Builtin.bytes lo hi) (.one (inRange lo hi)) :=
  (Builtin.readsByte_bytes lo hi).takes

/-- One of two byte strings. -/
theorem takes_either {a b : List UInt8} (ha : a ≠ []) (hb : b ≠ []) :
    Tree.Takes (.node () (.alt [bytes a, bytes b])) (.first [.exactly a, .exactly b]) :=
  Tree.takes_alt () (.cons (Tree.takes_lit () ha) (.cons (Tree.takes_lit () hb) .nil))

theorem heads_magic (hne : b ≠ []) (hrest : List.Forall₂ Tree.Takes rest takers) :
    (magic b rest).Heads (.inTurn (.exactly b :: takers)) :=
  Tree.heads_seq () () (.cons (Tree.takes_lit () hne) hrest)

theorem header_magic (hne : b ≠ []) (hhigh : (magic b []).deduced.sample.high < inf) :
    (magic b []).Header (.begins b) where
  high := hhigh
  heads := ⟨_, heads_magic hne .nil, fun contents => by simp⟩

theorem header_bzip2 :
    bzip2.Header fun contents =>
      Rule.begins (ascii "BZh") contents && Rule.byteAt 3 (inRange 0x31 0x39) contents where
  high := by decide
  heads := ⟨_, heads_magic (by decide) (.cons (takes_byte _ _) .nil), fun contents => by
    simp [Rule.byteAt, show (ascii "BZh").length = 3 from rfl]⟩

theorem header_elf :
    elf.Header fun contents =>
      Rule.begins [0x7F, 0x45, 0x4C, 0x46] contents && Rule.byteAt 4 (inRange 1 2) contents &&
        Rule.byteAt 5 (inRange 1 2) contents where
  high := by decide
  heads := by
    refine ⟨_, heads_magic (by decide) (.cons (takes_byte _ _) (.cons (takes_byte _ _) .nil)),
      fun contents => ?_⟩
    simp [Rule.byteAt, and_assoc]

theorem header_gif : gif.Header (.beginsAny [ascii "GIF87a", ascii "GIF89a"]) where
  high := by decide
  heads := by
    refine ⟨_, heads_magic (by decide) (.cons (takes_either (by decide) (by decide)) .nil),
      fun contents => ?_⟩
    have h87 : ascii "GIF87a" = ascii "GIF8" ++ ascii "7a" := rfl
    have h89 : ascii "GIF89a" = ascii "GIF8" ++ ascii "9a" := rfl
    simp [Rule.beginsAny, h87, h89, append_prefix_iff, and_or_left]

theorem header_tar :
    tar.Header fun contents =>
      Rule.begins (ascii "ustar") (contents.drop 257) &&
        Rule.beginsAny [[0x00, 0x30, 0x30], [0x20, 0x20, 0x00]] (contents.drop 262) where
  high := by decide
  heads := by
    refine ⟨_, Tree.heads_seq () () (.cons (Tree.takes_any () (by decide)) <|
      .cons (Tree.takes_lit () (by decide)) <|
      .cons (takes_either (by decide) (by decide)) .nil), fun contents => ?_⟩
    have hlength : (ascii "ustar").length = 5 := rfl
    -- the magic number is there only if all of the header is
    have hroom : ascii "ustar" <+: contents.drop 257 → 257 ≤ contents.length :=
      le_length_of_prefix_drop (by decide)
    simp [Rule.beginsAny, hlength]
    tauto

theorem header_shebang (hhigh : (shebang lines).deduced.sample.high < inf) :
    (shebang lines).Header (.beginsAny (lines.map fun line => ascii ("#!" ++ line))) where
  high := hhigh
  heads := by
    have hne : ∀ line, ascii ("#!" ++ line) ≠ [] := fun line => by simp [ascii]
    refine ⟨.first (lines.map fun line => .inTurn [.exactly (ascii ("#!" ++ line))]),
      Tree.heads_alt () ?_, fun contents => ?_⟩
    · rw [List.forall₂_map_left_iff, List.forall₂_map_right_iff, List.forall₂_same]
      exact fun line _ => heads_magic (hne line) .nil
    · simp [Rule.beginsAny]

end Shape

/-! ## Making the patterns -/

/-- In every pool, the edit makes a pattern that recognizes just the contents that meet the rule,
and changes nothing of what there is. -/
def Edit.Recognizes (e : Edit PatternId) (rule : Rule) : Prop :=
  ∀ p : Pool, p.WellFormed → Succeeds e p fun c q => p.Supplies q ∧ q.Recognizes c rule

theorem Edit.Makes.recognizes {e : Edit PatternId} {shape : Shape} {rule : Rule} (h : e.Makes shape)
    (hshape : shape.Header rule) : e.Recognizes rule := fun p hp =>
  (h p hp).mono fun _ _ hc => ⟨hc.1, shape, hc.2, hshape⟩

namespace Catalog

open Edit
open Matcher (inRange)

variable {p : Pool} {b : List UInt8} {rest : List PatternId} {shapes : List Shape}
  {lines names exts : List String}

theorem ascii_append_ne_nil {s : String} (hne : ascii s ≠ []) (t : String) :
    ascii (s ++ t) ≠ [] := by
  simp_all [ascii]

theorem succeeds_magic (hne : b ≠ []) (hp : p.WellFormed)
    (hrest : List.Forall₂ p.Denotes rest shapes) :
    Succeeds (magic b rest) p fun c q => p.Supplies q ∧ q.Denotes c (.magic b shapes) := by
  refine succeeds_bind (makes_anchor .bufferStart p hp) fun start q hq hstart => ?_
  refine succeeds_bind (makes_lit hne q hq.wellFormed) fun body r hr hbody => ?_
  have hrest' : List.Forall₂ r.Denotes rest shapes := (hq.trans hr).forall₂_denotes hrest
  exact succeeds_seq hr.wellFormed (.cons (hr.denotes hstart) (.cons hbody hrest'))

theorem makes_magic (hne : b ≠ []) : (magic b []).Makes (.magic b []) :=
  fun _ hp => succeeds_magic hne hp .nil

theorem recognizes_magic (hne : b ≠ []) (hhigh : (Shape.magic b []).deduced.sample.high < inf) :
    (magic b []).Recognizes (.begins b) :=
  (makes_magic hne).recognizes (Shape.header_magic hne hhigh)

theorem makes_bzip2 :
    (do magic (ascii "BZh") [← Edit.range 0x31 0x39] : Edit PatternId).Makes Shape.bzip2 := by
  intro p hp
  refine succeeds_bind (makes_range (by decide) p hp) fun digit q hq hdigit => ?_
  exact succeeds_magic (by decide) hq.wellFormed (.cons hdigit .nil)

theorem makes_elfHeader : elfHeader.Makes Shape.elf := by
  intro p hp
  refine succeeds_bind (makes_range (by decide) p hp) fun word q hq hword => ?_
  refine succeeds_bind (makes_range (by decide) q hq.wellFormed) fun order r hr horder => ?_
  exact succeeds_magic (by decide) hr.wellFormed (.cons (hr.denotes hword) (.cons horder .nil))

theorem makes_gifHeader : gifHeader.Makes Shape.gif := by
  intro p hp
  refine succeeds_bind (makes_lit (by decide) p hp) fun version87 q hq h87 => ?_
  refine succeeds_bind (makes_lit (by decide) q hq.wellFormed) fun version89 r hr h89 => ?_
  have hversions : List.Forall₂ r.Denotes [version87, version89] [Shape.bytes (ascii "7a"),
      Shape.bytes (ascii "9a")] :=
    .cons (hr.denotes h87) (.cons h89 .nil)
  refine succeeds_bind (succeeds_alt hr.wellFormed hversions) fun version s hs hversion => ?_
  exact succeeds_magic (by decide) hs.wellFormed (.cons hversion .nil)

theorem makes_tarHeader : tarHeader.Makes Shape.tar := by
  intro p hp
  refine succeeds_bind (makes_anchor .bufferStart p hp) fun start q hq hstart => ?_
  refine succeeds_bind (makes_any (by decide) q hq.wellFormed) fun header r hr hheader => ?_
  refine succeeds_bind (makes_lit (by decide) r hr.wellFormed) fun ustar s hs hustar => ?_
  refine succeeds_bind (makes_lit (by decide) s hs.wellFormed) fun posix t ht hposix => ?_
  refine succeeds_bind (makes_lit (by decide) t ht.wellFormed) fun gnu u hu hgnu => ?_
  have hversions : List.Forall₂ u.Denotes [posix, gnu] [Shape.bytes [0x00, 0x30, 0x30],
      Shape.bytes [0x20, 0x20, 0x00]] :=
    .cons (hu.denotes hposix) (.cons hgnu .nil)
  refine succeeds_bind (succeeds_alt hu.wellFormed hversions) fun version v hv hversion => ?_
  have hustar' : v.Denotes ustar (.bytes (ascii "ustar")) := ((ht.trans hu).trans hv).denotes hustar
  have hheader' : v.Denotes header (.node () (.any (8 * 257))) :=
    ((hs.trans (ht.trans hu)).trans hv).denotes hheader
  have hstart' : v.Denotes start (.anchor .bufferStart) :=
    ((hr.trans (hs.trans (ht.trans hu))).trans hv).denotes hstart
  exact succeeds_seq hv.wellFormed
    (.cons hstart' (.cons hheader' (.cons hustar' (.cons hversion .nil))))

theorem makes_litNocase (hne : b ≠ []) :
    (litNocase b).Makes (.node () (.lit ⟨.ofBytes b, true, false⟩)) := by
  have hwhole : (Bits.ofBytes b).WholeBytes := by
    rw [Bits.WholeBytes, Bits.length_ofBytes, Nat.mul_mod_right]
  exact makes_literal ⟨Literal.not_isEmpty_ofBytes hne, Or.inr hwhole⟩

theorem makes_shebangs (lines : List String) : (shebangs lines).Makes (.shebang lines) :=
  makes_alt_mapM fun line _ => makes_magic (ascii_append_ne_nil (by decide) line)

theorem makes_extensions (exts : List String) :
    (extensions exts).Makes
      (.node () (.alt (exts.map fun ext => Shape.ending (ascii ("." ++ ext))))) :=
  makes_alt_mapM fun ext _ => makes_endingWith (ascii_append_ne_nil (by decide) ext)

theorem makes_namesNocase {names : List String} (hne : ∀ name ∈ names, ascii name ≠ []) :
    (namesNocase names).Makes
      (.node () (.alt (names.map fun name => Shape.wholeNocase (ascii name)))) := by
  refine makes_alt_mapM fun name hname p hp => ?_
  refine succeeds_bind (makes_anchor .bufferStart p hp) fun start q hq hstart => ?_
  refine succeeds_bind (makes_litNocase (hne name hname) q hq.wellFormed) fun body r hr hbody => ?_
  refine succeeds_bind (makes_anchor .bufferEnd r hr.wellFormed) fun stop s hs hstop => ?_
  have hstart' : s.Denotes start (.anchor .bufferStart) := hs.denotes (hr.denotes hstart)
  exact succeeds_seq hs.wellFormed (.cons hstart' (.cons (hs.denotes hbody) (.cons hstop .nil)))

/-! ## The patterns for scripts -/

structure ScriptPatterns.Made (s : ScriptPatterns) (p : Pool) : Prop where
  live : ∀ n ∈ [s.cNames, s.cxxNames, s.pythonNames, s.shellNames, s.makeNames], p.contains n = true
  python : p.Recognizes s.pythonLines
    (.beginsAny [ascii "#!/usr/bin/python", ascii "#!/usr/bin/env python",
      ascii "#!/usr/local/bin/python"])
  shell : p.Recognizes s.shellLines
    (.beginsAny [ascii "#!/bin/sh", ascii "#!/bin/bash", ascii "#!/usr/bin/env sh",
      ascii "#!/usr/bin/env bash"])

theorem succeeds_setName {id : PatternId} {shape : Shape} (hp : p.WellFormed)
    (hid : p.Denotes id shape) (name : String) :
    Succeeds (setName id name) p fun _ q => p.Supplies q ∧ q.Denotes id shape :=
  (succeeds_describe hp hid.live _).mono fun _ _ hq => ⟨hq, hq.denotes hid⟩

theorem succeeds_scriptPatterns (hp : p.WellFormed) :
    Succeeds scriptPatterns p fun s q => p.Supplies q ∧ s.Made q := by
  refine succeeds_bind (makes_extensions _ p hp) fun c q₀ h₀ hc => ?_
  refine succeeds_bind (succeeds_setName h₀.wellFormed hc _) fun _ q₁ h₁ hc => ?_
  refine succeeds_bind (makes_extensions _ q₁ h₁.wellFormed) fun cxx q₂ h₂ hcxx => ?_
  refine succeeds_bind (succeeds_setName h₂.wellFormed hcxx _) fun _ q₃ h₃ hcxx => ?_
  refine succeeds_bind (makes_extensions _ q₃ h₃.wellFormed) fun python q₄ h₄ hpython => ?_
  refine succeeds_bind (makes_shebangs _ q₄ h₄.wellFormed) fun pythonLines q₅ h₅ hpythonLines => ?_
  refine succeeds_bind (makes_extensions _ q₅ h₅.wellFormed) fun shell q₆ h₆ hshell => ?_
  refine succeeds_bind (makes_shebangs _ q₆ h₆.wellFormed) fun shellLines q₇ h₇ hshellLines => ?_
  refine succeeds_bind (makes_namesNocase (by decide) q₇ h₇.wellFormed) fun make q₈ h₈ hmake => ?_
  refine succeeds_bind (succeeds_setName h₈.wellFormed hmake _) fun _ q₉ h₉ hmake => ?_
  -- what was made first is still there in the end
  have h₇₉ : q₇.Supplies q₉ := h₈.trans h₉
  have h₆₉ : q₆.Supplies q₉ := h₇.trans h₇₉
  have h₅₉ : q₅.Supplies q₉ := h₆.trans h₆₉
  have h₄₉ : q₄.Supplies q₉ := h₅.trans h₅₉
  have h₃₉ : q₃.Supplies q₉ := h₄.trans h₄₉
  have h₁₉ : q₁.Supplies q₉ := h₂.trans (h₃.trans h₃₉)
  refine Succeeds.pure ⟨.refl h₉.wellFormed, ?_, ?_, ?_⟩
  · simp only [List.forall_mem_cons, List.not_mem_nil]
    exact ⟨(h₁₉.denotes hc).live, (h₃₉.denotes hcxx).live, (h₄₉.denotes hpython).live,
      (h₆₉.denotes hshell).live, hmake.live, fun _ => False.elim⟩
  · exact ⟨_, h₅₉.denotes hpythonLines, Shape.header_shebang (by decide +kernel)⟩
  · exact ⟨_, h₇₉.denotes hshellLines, Shape.header_shebang (by decide +kernel)⟩

/-! ## The types -/

/-- The types that are recognized by how their contents begin, and the rules that say so. -/
def magicHeaders : List (String × Rule) := [
  ("gzip", .begins [0x1F, 0x8B]),
  ("compress", .begins [0x1F, 0x9D]),
  ("bzip2", fun contents =>
    Rule.begins (ascii "BZh") contents && Rule.byteAt 3 (inRange 0x31 0x39) contents),
  ("xz", .begins [0xFD, 0x37, 0x7A, 0x58, 0x5A, 0x00]),
  ("lzma", .begins [0x5D, 0x00, 0x00]),
  ("zip", .begins [0x50, 0x4B, 0x03, 0x04]),
  ("tar", fun contents => Rule.begins (ascii "ustar") (contents.drop 257) &&
    Rule.beginsAny [[0x00, 0x30, 0x30], [0x20, 0x20, 0x00]] (contents.drop 262)),
  ("png", .begins [0x89, 0x50, 0x4E, 0x47, 0x0D, 0x0A, 0x1A, 0x0A]),
  ("jpeg", .begins [0xFF, 0xD8, 0xFF]),
  ("gif", .beginsAny [ascii "GIF87a", ascii "GIF89a"]),
  ("elf", fun contents => Rule.begins [0x7F, 0x45, 0x4C, 0x46] contents &&
    Rule.byteAt 4 (inRange 1 2) contents && Rule.byteAt 5 (inRange 1 2) contents)]

def scriptHeaders : List (String × Rule) := [
  ("c", .never),
  ("c++", .never),
  ("python",
    .beginsAny [ascii "#!/usr/bin/python", ascii "#!/usr/bin/env python",
      ascii "#!/usr/local/bin/python"]),
  ("shell",
    .beginsAny [ascii "#!/bin/sh", ascii "#!/bin/bash", ascii "#!/usr/bin/env sh",
      ascii "#!/usr/bin/env bash"]),
  ("makefile", .never)]

def headers : List (String × Rule) := magicHeaders ++ scriptHeaders

theorem magics_recognize :
    List.Forall₂ (fun m rule => m.name = rule.1 ∧ m.pattern.Recognizes rule.2)
      magics magicHeaders :=
  .cons ⟨rfl, recognizes_magic (by decide) (by decide)⟩ <|
  .cons ⟨rfl, recognizes_magic (by decide) (by decide)⟩ <|
  .cons ⟨rfl, makes_bzip2.recognizes Shape.header_bzip2⟩ <|
  .cons ⟨rfl, recognizes_magic (by decide) (by decide)⟩ <|
  .cons ⟨rfl, recognizes_magic (by decide) (by decide)⟩ <|
  .cons ⟨rfl, recognizes_magic (by decide) (by decide)⟩ <|
  .cons ⟨rfl, makes_tarHeader.recognizes Shape.header_tar⟩ <|
  .cons ⟨rfl, recognizes_magic (by decide) (by decide)⟩ <|
  .cons ⟨rfl, recognizes_magic (by decide) (by decide)⟩ <|
  .cons ⟨rfl, makes_gifHeader.recognizes Shape.header_gif⟩ <|
  .cons ⟨rfl, makes_elfHeader.recognizes Shape.header_elf⟩ .nil

def Prepared (p : Pool) (t : FileType) (rule : String × Rule) : Prop :=
  ∃ built, t.build = .ok built ∧ built.name = rule.1 ∧ (∀ n ∈ built.patterns, p.contains n = true) ∧
    built.Follows p rule.2

theorem ScriptPatterns.Made.prepared {s : ScriptPatterns} (h : s.Made p) :
    List.Forall₂ (Prepared p) (scriptTypes s) scriptHeaders := by
  have hlive := h.live
  simp only [List.forall_mem_cons] at hlive
  obtain ⟨hc, hcxx, hpython, hshell, hmake, -⟩ := hlive
  have pair {m n : PatternId} (hm : p.contains m = true) (hn : p.contains n = true) :
      ∀ i ∈ [m, n], p.contains i = true := by simp [hm, hn]
  have single {n : PatternId} (hn : p.contains n = true) : ∀ i ∈ [n], p.contains i = true := by
    simp [hn]
  exact
    .cons ⟨_, rfl, rfl, single hc, Or.inl ⟨rfl, rfl⟩⟩ <|
    .cons ⟨_, rfl, rfl, single hcxx, Or.inl ⟨rfl, rfl⟩⟩ <|
    .cons ⟨_, rfl, rfl, pair hpython h.python.live, Or.inr ⟨Or.inr rfl, _, rfl, h.python⟩⟩ <|
    .cons ⟨_, rfl, rfl, pair hshell h.shell.live, Or.inr ⟨Or.inr rfl, _, rfl, h.shell⟩⟩ <|
    .cons ⟨_, rfl, rfl, single hmake, Or.inl ⟨rfl, rfl⟩⟩ .nil

section Registering

open Registry

variable {r : Registry} {rules : List (String × Rule)} {rule : String × Rule}

theorem succeeds_registerBuilt (h : r.Ruled rules) {t : FileType} (ht : Prepared r.pool t rule) :
    Succeeds (registerBuilt t) r fun _ s => s.Ruled (rules ++ [rule]) ∧ r.pool.Sustains s.pool := by
  obtain ⟨built, hbuild, hname, hlive, hfollows⟩ := ht
  unfold registerBuilt
  rw [hbuild]
  refine (h.succeeds_register hlive hfollows).bind ?_
  rw [hname]
  exact fun _ s hs => Succeeds.pure hs

theorem succeeds_registerMagic (h : r.Ruled rules) {m : Magic} {id : PatternId}
    (hid : r.pool.Recognizes id rule.2) (hname : m.name = rule.1) :
    Succeeds (registerMagic m id) r fun _ s => s.Ruled (rules ++ [rule]) ∧
      r.pool.Sustains s.pool := by
  have describe {q : Pool} (hq : q.WellFormed) (hid : q.Recognizes id rule.2)
      (f : Description → Description) :
      Succeeds (describe id f) q fun _ q' => q.Supplies q' ∧ q'.Recognizes id rule.2 :=
    (succeeds_describe hq hid.live f).mono fun _ _ hs => ⟨hs, hid.supplied hs⟩
  refine (h.succeeds_onPool (describe h.wellFormed hid _)).bind ?_
  rintro _ s ⟨hs, hrs, hid⟩
  refine (hs.succeeds_onPool (describe hs.wellFormed hid _)).bind ?_
  rintro _ t ⟨ht, hst, hid⟩
  refine (succeeds_registerBuilt ht ⟨_, rfl, hname, ?_, Or.inr ⟨Or.inl rfl, id, rfl, hid⟩⟩).mono ?_
  · simpa [FileType.patterns] using hid.live
  · rintro _ u ⟨hu, htu⟩
    exact ⟨hu, (hrs.trans hst).trans htu⟩

theorem forall₂_zip_left {α β γ : Type} {R : α → γ → Prop} {S : β → γ → Prop} {as : List α}
    {bs : List β} {cs : List γ} (h : List.Forall₂ R as cs) (h' : List.Forall₂ S bs cs) :
    List.Forall₂ (fun x c => R x.1 c ∧ S x.2 c) (as.zip bs) cs := by
  induction h generalizing bs with
  | nil =>
    cases h'
    exact .nil
  | cons ha _ ih =>
    obtain _ | ⟨hb, h'⟩ := h'
    exact .cons ⟨ha, hb⟩ (ih h')

theorem ruled_ofConfig : (ofConfig {}).Ruled [] where
  sound := sound_ofConfig {}
  free := ⟨fun _ => rfl, fun _ => rfl⟩
  mode := rfl
  nextId := rfl
  ids := rfl
  follows := .nil

/-- All types register, one for each rule. -/
theorem succeeds_registerAll : Succeeds registerAll (ofConfig {}) fun _ r => r.Ruled headers := by
  have hstart := ruled_ofConfig
  refine (hstart.succeeds_onPool (P := fun ids q =>
    List.Forall₂ (fun x rule => x.1.name = rule.1 ∧ q.Recognizes x.2 rule.2) (magics.zip ids)
      magicHeaders) ?_).bind ?_
  · have hmade := succeeds_mapM (fun q c (rule : String × Rule) => q.Recognizes c rule.2)
      (fun hq hc => hc.supplied hq)
      (magics_recognize.imp fun _ _ hm => hm.2) hstart.wellFormed
    exact hmade.mono fun ids q hq =>
      ⟨hq.1, forall₂_zip_left (magics_recognize.imp fun _ _ hm => hm.1) hq.2⟩
  rintro ids r ⟨hr, -, hids⟩
  refine (hr.succeeds_forIn (fun p x rule => x.1.name = rule.1 ∧ p.Recognizes x.2 rule.2) ?_ ?_
    hids).bind ?_
  · rintro p q x rule ⟨hname, hid⟩ hq hfree
    exact ⟨hname, hid.sustained hq hfree⟩
  · rintro r rules x rule hr ⟨hname, hid⟩
    exact succeeds_registerMagic hr hid hname
  rintro _ r hr
  refine (hr.succeeds_onPool (succeeds_scriptPatterns hr.wellFormed)).bind ?_
  rintro scripts s ⟨hs, -, hscripts⟩
  refine (hs.succeeds_forIn Prepared ?_ ?_ hscripts.prepared).bind fun _ _ hr => Succeeds.pure hr
  · rintro p q x rule ⟨built, hbuild, hname, hlive, hfollows⟩ hq hfree
    exact ⟨built, hbuild, hname, fun n hn => hq.contains n (hlive n hn),
      follows_sustained hfollows hq hfree⟩
  · exact fun hr ht => succeeds_registerBuilt hr ht

end Registering

/-- The definition is unfolded before it is applied, because all types would be registered to
compare what it is applied to with its result. -/
theorem registry_eq_ok {config : Config} {r : Registry}
    (hrun : registerAll (.ofConfig config) = .ok () r) : registry config = .ok r := by
  have hdef : ∃ f, registry = f ∧ f config = .ok r := by
    refine ⟨_, by delta registry; exact rfl, ?_⟩
    rw [hrun]
  obtain ⟨f, hf, hok⟩ := hdef
  exact (congrFun hf config).trans hok

/-- The registry has the types of the catalog, and contents without a path are of the first one
whose rule they meet. -/
structure Classifies (r : Registry) : Prop where
  ids : r.types.map (·.1) = (List.range headers.length).map FileTypeId.mk
  names : r.types.map (·.2.name) = headers.map (·.1)
  first : ∀ data : Buffer, r.typeOf ⟨none, .bytes data⟩ .full none =
    .ok ((headers.findIdx? fun header => header.2 data.toList).map FileTypeId.mk)

theorem classifies_of_ruled {r : Registry} (h : r.Ruled headers) : Classifies r :=
  ⟨h.ids, h.names, h.typeOf_eq⟩

/-- The catalog can be built and canonicalized, and classifies contents by the rules before and
after. -/
theorem registry_classifies :
    ∃ r, registry {} = .ok r ∧ Classifies r ∧
      ∃ changed s, Registry.canonicalizeAll r = .ok changed s ∧ Classifies s := by
  obtain ⟨_, r, hrun, hr⟩ := succeeds_registerAll
  obtain ⟨changed, s, hcanonical, hs⟩ := hr.succeeds_canonicalizeAll
  exact ⟨r, registry_eq_ok hrun, classifies_of_ruled hr, changed, s, hcanonical,
    classifies_of_ruled hs⟩

end Catalog

end Sigil
