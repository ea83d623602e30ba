import Sigil.Proofs.Pool.Matching
import Sigil.Proofs.Registry.Canonical

namespace Sigil

/-! ## The names in a path -/

namespace Path

theorem length_le_of_mem_split {path : Path} {piece : List UInt8} (h : piece ∈ split path) :
    piece.length ≤ path.length := by
  induction path generalizing piece with
  | nil => rw [List.mem_singleton.1 h]
  | cons b rest ih =>
    unfold split at h
    split at h
    case h_1 =>
      rcases List.mem_cons.1 h with rfl | hpiece
      · exact Nat.zero_le _
      · exact Nat.le_succ_of_le (ih hpiece)
    case h_2 first pieces _ hsplit =>
      rw [hsplit] at ih
      rcases List.mem_cons.1 h with rfl | hpiece
      · exact Nat.succ_le_succ (ih List.mem_cons_self)
      · exact Nat.le_succ_of_le (ih (List.mem_cons_of_mem _ hpiece))
    case h_3 =>
      rw [List.mem_singleton.1 h]
      exact Nat.succ_le_succ (Nat.zero_le _)

theorem inner?_eq_normal {piece name : List UInt8} (h : inner? piece = some (.normal name)) :
    name = piece := by
  unfold inner? at h
  split at h
  · exact nomatch h
  · split at h
    · exact nomatch h
    · injection h with h
      injection h with h
      exact h.symm

theorem mem_split_of_normal {path : Path} {name : List UInt8} (h : .normal name ∈ components path) :
    name ∈ split path := by
  unfold components at h
  split at h
  case h_1 => exact absurd h List.not_mem_nil
  case h_2 first rest hsplit =>
    rw [hsplit]
    rcases List.mem_append.1 h with hfirst | hrest
    · rw [Option.mem_toList] at hfirst
      split at hfirst
      · exact nomatch hfirst
      · split at hfirst
        · exact nomatch hfirst
        · rw [inner?_eq_normal hfirst]
          exact List.mem_cons_self
    · obtain ⟨piece, hpiece, hinner⟩ := List.mem_filterMap.1 hrest
      rw [inner?_eq_normal hinner]
      exact List.mem_cons_of_mem _ hpiece

theorem mem_of_lastName? {cs : List Component} {name : List UInt8} (h : lastName? cs = some name) :
    .normal name ∈ cs := by
  unfold lastName? at h
  split at h
  case h_1 hlast =>
    rw [← Option.some.inj h]
    exact List.mem_of_getLast? hlast
  case h_2 => exact nomatch h

end Path

namespace Subject

variable {s : Subject} {domain : Domain} {name : List UInt8}

theorem length_le_of_nameIn (h : s.nameIn domain = some name) :
    ∃ path, s.path = some path ∧ name.length ≤ path.length := by
  obtain ⟨path, hpath, hname⟩ := Option.bind_eq_some_iff.1 h
  refine ⟨path, hpath, ?_⟩
  split at hname
  · rw [Option.some.inj hname]
  · exact Path.length_le_of_mem_split
      (Path.mem_split_of_normal (List.dropLast_subset _ (Path.mem_of_lastName? hname)))
  · exact Path.length_le_of_mem_split (Path.mem_split_of_normal (Path.mem_of_lastName? hname))

structure Addressable (s : Subject) : Prop where
  path : ∀ path, s.path = some path → Buffer.bitSize path.toArray < inf
  bytes : ∀ data, s.contents = .bytes data → data.bitSize < inf
  file : ∀ file size, s.contents = .file file size → file.bytes.bitSize < inf

theorem Addressable.nameIn (h : s.Addressable) (hname : s.nameIn domain = some name) :
    Buffer.bitSize name.toArray < inf := by
  obtain ⟨path, hpath, hle⟩ := length_le_of_nameIn hname
  have hbits := h.path path hpath
  unfold Buffer.bitSize at hbits ⊢
  rw [List.size_toArray] at hbits ⊢
  omega

end Subject

/-! ## Patterns of one meaning -/

/-- Trees with instances of the same lengths match a file the same where they match buffers the
same. -/
theorem Tree.matchFile_congr {t u : Tree Note} (hsample : u.sample = t.sample) {mode : MatchMode}
    (hmatch : ∀ data : Buffer, data.bitSize < inf →
      ∀ region, u.matchIn data region mode = t.matchIn data region mode)
    {file : File} (hfile : file.bytes.bitSize < inf) (size : Option Nat) (region : BitRange)
    (config : ContentConfig) (page : Nat) :
    u.matchFile file size region mode config page =
      t.matchFile file size region mode config page := by
  unfold matchFile
  rw [hsample]
  dsimp only
  cases contentWindow t.sample region (Offset.ofBytes (file.sizeFor size config)) mode with
  | none => rfl
  | some window =>
    dsimp only
    cases hload : file.load (loadStart window page)
        (loadStop window (file.sizeFor size config) - loadStart window page) config with
    | error e => rfl
    | ok data =>
      have hsize : data.bitSize < inf := by
        have hextract := File.eq_of_load hload
        have hle : data.size ≤ file.bytes.size := by
          rw [hextract, Array.size_extract]
          omega
        unfold Buffer.bitSize at hfile ⊢
        omega
      show Except.ok _ = Except.ok _
      rw [hmatch data hsize]

namespace Pool

variable {p q : Pool} {m n : PatternId}

/-- Patterns of one meaning match the same, buffers and files. -/
theorem Agree.matches (h : p.Agree q m n) (hp : p.WellFormed) (hq : q.WellFormed)
    (hpbare : ∀ n, p.matcher? n = none) (hqbare : ∀ n, q.matcher? n = none) (hpaligned : p.Aligned)
    (hqaligned : q.Aligned) :
    (∀ data : Buffer, data.bitSize < inf →
      ∀ region mode, q.matchIn n data region mode = p.matchIn m data region mode) ∧
      ∀ file : File, file.bytes.bitSize < inf → ∀ size region mode config page,
        q.matchFile n file size region mode config page =
          p.matchFile m file size region mode config page := by
  obtain ⟨hplain, hsample, -⟩ :=
    hp.agree_of_meaning_eq hq h.old_live h.new_live (h.meaning hpaligned)
  have hmatch : ∀ data : Buffer, data.bitSize < inf → ∀ region mode,
      q.matchIn n data region mode = p.matchIn m data region mode := by
    intro data hinf region mode
    rw [hq.matchIn_eq_plainIn h.new_live (fun n _ => hqbare n) (hqaligned.flush n) hinf,
      hp.matchIn_eq_plainIn h.old_live (fun n _ => hpbare n) (hpaligned.flush m) hinf, hplain]
  refine ⟨hmatch, fun file hfile size region mode config page => ?_⟩
  obtain ⟨t, ht, hunfolds⟩ := hp.exists_tree h.old_live
  obtain ⟨u, hu, hunfolds'⟩ := hq.exists_tree h.new_live
  rw [matchFile, matchFile, ht, hu]
  apply Tree.matchFile_congr _ _ hfile
  · rw [hunfolds.sample, hunfolds'.sample, hsample]
  · intro data hinf region
    have hsame := hmatch data hinf region mode
    rw [matchIn, matchIn, ht, hu] at hsame
    exact hsame

end Pool

/-! ## Registries that agree -/

namespace Registry

variable {r s : Registry} {t u : FileType} {subject : Subject} {held : PatternId → Nat}

/-- The name pattern describes the part of the path that its domain says. -/
theorem nameMatches_eq (r : Registry) (t : FileType) (subject : Subject) :
    r.nameMatches t subject = t.namePattern.any fun id =>
      (subject.nameIn ((r.pool.domain? id).getD .fileName)).any fun name =>
        (r.pool.matchIn id name.toArray .full .search).isSome := by
  unfold nameMatches
  cases t.namePattern with
  | none => rfl
  | some id =>
    rw [Option.any_some]
    dsimp only
    congr 2
    rw [Pool.domain?, Pool.kind?]
    cases r.pool.get? id with
    | none => rfl
    | some node =>
      rw [Option.map_some]
      cases node.kind <;> rfl

section Types

variable (hr : r.pool.WellFormed) (hs : s.pool.WellFormed) (hrbare : ∀ n, r.pool.matcher? n = none)
  (hsbare : ∀ n, s.pool.matcher? n = none) (hraligned : r.pool.Aligned) (hsaligned : s.pool.Aligned)
  (hsubject : subject.Addressable)

include hr hs hrbare hsbare hraligned hsaligned hsubject

theorem nameMatches_congr (h : t.Agrees r.pool s.pool u) :
    s.nameMatches u subject = r.nameMatches t subject := by
  have hslot := h.slots .name
  change Option.Rel _ t.namePattern u.namePattern at hslot
  rw [nameMatches_eq, nameMatches_eq]
  generalize t.namePattern = x at hslot
  generalize u.namePattern = y at hslot
  cases hslot with
  | none => rfl
  | @some m n hagree =>
    rw [Option.any_some, Option.any_some, hagree.domain?]
    cases hname : subject.nameIn ((r.pool.domain? m).getD .fileName) with
    | none => rfl
    | some name =>
      rw [Option.any_some, Option.any_some,
        (hagree.matches hr hs hrbare hsbare hraligned hsaligned).1 _ (hsubject.nameIn hname)]

theorem contentsMatch_congr (hconfig : s.config = r.config) (h : t.Agrees r.pool s.pool u)
    (region : BitRange) : s.contentsMatch u subject region = r.contentsMatch t subject region := by
  have hslot := h.slots .content
  change Option.Rel _ t.contentPattern u.contentPattern at hslot
  unfold contentsMatch
  rw [hconfig]
  generalize t.contentPattern = x at hslot
  generalize u.contentPattern = y at hslot
  cases hslot with
  | none => rfl
  | some hagree =>
    obtain ⟨hmatch, hfile⟩ := hagree.matches hr hs hrbare hsbare hraligned hsaligned
    cases hcontents : subject.contents with
    | unknown => rfl
    | bytes data =>
      dsimp only
      rw [hmatch data (hsubject.bytes data hcontents)]
    | file file size =>
      dsimp only
      rw [hfile file (hsubject.file file size hcontents)]

theorem typeMatches_congr (hconfig : s.config = r.config) (h : t.Agrees r.pool s.pool u)
    (region : BitRange) (policy : Option Policy) :
    s.typeMatches u subject region policy = r.typeMatches t subject region policy := by
  unfold typeMatches
  rw [h.policy, nameMatches_congr hr hs hrbare hsbare hraligned hsaligned hsubject h,
    contentsMatch_congr hr hs hrbare hsbare hraligned hsaligned hsubject hconfig h]

end Types

theorem Agrees.rel_get? (h : r.Agrees s) (id : FileTypeId) :
    Option.Rel (FileType.Agrees r.pool s.pool) (r.get? id) (s.get? id) := by
  have htypes := h.types
  unfold get?
  generalize r.types = as at htypes
  generalize s.types = bs at htypes
  induction htypes with
  | nil => exact .none
  | @cons a b as bs hab _ ih =>
    rw [List.lookup_cons, List.lookup_cons, hab.1]
    cases id == a.1 with
    | true => exact .some hab.2
    | false => exact ih

/-- Registries with the same types, but for patterns of one meaning and one domain, recognize the
same. -/
theorem Agrees.recognizes (h : r.Agrees s) (hr : r.Sound held) (hs : s.Sound held)
    (hbare : ∀ n, r.pool.matcher? n = none) (haligned : r.pool.Aligned)
    (hsubject : subject.Addressable) (region : BitRange) (policy : Option Policy) :
    (∀ id, s.isOf id subject region policy = r.isOf id subject region policy) ∧
      s.typeOf subject region policy = r.typeOf subject region policy := by
  have hmatch : ∀ {t u : FileType}, t.Agrees r.pool s.pool u →
      s.typeMatches u subject region policy = r.typeMatches t subject region policy := fun htu =>
    typeMatches_congr hr.holds.wellFormed hs.holds.wellFormed hbare (h.matcher? hbare) haligned
      (h.aligned haligned)
      hsubject h.config htu region policy
  constructor
  · intro id
    have hrel := h.rel_get? id
    unfold isOf
    generalize r.get? id = o at hrel
    generalize s.get? id = o' at hrel
    cases hrel with
    | none => rfl
    | some htu => exact hmatch htu
  · have htypes := h.types
    unfold typeOf
    generalize r.types = as at htypes
    generalize s.types = bs at htypes
    induction htypes with
    | nil => rfl
    | @cons a b as bs hab _ ih =>
      obtain ⟨id, t⟩ := a
      obtain ⟨id', u⟩ := b
      obtain ⟨rfl, htu⟩ := hab
      rw [firstOf, firstOf, hmatch htu, ih]

end Registry

end Sigil
