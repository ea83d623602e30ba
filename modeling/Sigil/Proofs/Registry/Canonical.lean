import Sigil.Proofs.Registry.Registration

namespace Sigil

/-- The pattern `m` of `p` and the pattern `n` of `q` have one domain. They have one meaning if no
literal begins inside a byte of its storage. -/
structure Pool.Agree (p q : Pool) (m n : PatternId) : Prop where
  old_live : p.contains m = true
  new_live : q.contains n = true
  meaning : p.Aligned → q.meaning n = p.meaning m
  domain? : q.domain? n = p.domain? m

theorem Pool.Agree.trans {p q r : Pool} {m n o : PatternId} (hpq : p.Aligned → q.Aligned)
    (h : p.Agree q m n) (h' : q.Agree r n o) : p.Agree r m o where
  old_live := h.old_live
  new_live := h'.new_live
  meaning hp := (h'.meaning (hpq hp)).trans (h.meaning hp)
  domain? := h'.domain?.trans h.domain?

namespace FileType

variable {p q r : Pool} {t u v : FileType} {slot slot' : Slot} {c n : PatternId}

@[simp] theorem pattern?_setPattern_self (t : FileType) (c : PatternId) (slot : Slot) :
    (t.setPattern c slot).pattern? slot = some c := by
  cases slot <;> rfl

theorem pattern?_setPattern_of_ne (h : slot' ≠ slot) (t : FileType) (c : PatternId) :
    (t.setPattern c slot).pattern? slot' = t.pattern? slot' := by
  cases slot <;> cases slot' <;> first | rfl | exact absurd rfl h

theorem pattern?_setPattern_eq_some_iff :
    (t.setPattern c slot).pattern? slot' = some n ↔
      slot' = slot ∧ n = c ∨ slot' ≠ slot ∧ t.pattern? slot' = some n := by
  by_cases h : slot' = slot
  · rw [h, pattern?_setPattern_self, Option.some.injEq]
    simp [eq_comm]
  · simp [pattern?_setPattern_of_ne h, h]

theorem setPattern_self (h : t.pattern? slot = some n) : t.setPattern n slot = t := by
  cases slot with
  | name =>
    change t.namePattern = some n at h
    rw [setPattern, ← h]
  | content =>
    change t.contentPattern = some n at h
    rw [setPattern, ← h]

@[simp] theorem policy_setPattern (t : FileType) (c : PatternId) (slot : Slot) :
    (t.setPattern c slot).policy = t.policy := by
  cases slot <;> rfl

/-- Both types have the same policy, and patterns of one meaning and one domain in the same
slots. -/
structure Agrees (p q : Pool) (t u : FileType) : Prop where
  policy : u.policy = t.policy
  slots : ∀ slot, Option.Rel (p.Agree q) (t.pattern? slot) (u.pattern? slot)

theorem Agrees.trans (hpq : p.Aligned → q.Aligned) (h : Agrees p q t u) (h' : Agrees q r u v) :
    Agrees p r t v where
  policy := h'.policy.trans h.policy
  slots slot := by
    have hfirst := h.slots slot
    have hsecond := h'.slots slot
    generalize t.pattern? slot = x at hfirst
    generalize u.pattern? slot = y at hfirst hsecond
    generalize v.pattern? slot = z at hsecond
    cases hfirst with
    | none =>
      cases hsecond
      exact .none
    | some hxy =>
      cases hsecond with
      | some hyz => exact .some (hxy.trans hpq hyz)

end FileType

namespace Registry

variable {r s u : Registry} {id : FileTypeId} {t : FileType} {slot : Slot} {c n : PatternId}
  {held : PatternId → Nat}

/-- Both registries have the same types, but for patterns of one meaning and one domain. -/
structure Agrees (r s : Registry) : Prop where
  config : s.config = r.config
  types : List.Forall₂ (fun a b => b.1 = a.1 ∧ a.2.Agrees r.pool s.pool b.2) r.types s.types
  matcher? : (∀ n, r.pool.matcher? n = none) → ∀ n, s.pool.matcher? n = none
  aligned : r.pool.Aligned → s.pool.Aligned

theorem Agrees.trans (h : r.Agrees s) (h' : s.Agrees u) : r.Agrees u where
  config := h'.config.trans h.config
  types := by
    have hfirst := h.types
    have hsecond := h'.types
    generalize r.types = as at hfirst
    generalize s.types = bs at hfirst hsecond
    generalize u.types = cs at hsecond
    induction hfirst generalizing cs with
    | nil =>
      cases hsecond
      exact .nil
    | cons hab _ ih =>
      cases hsecond with
      | cons hbc hrest => exact .cons ⟨hbc.1.trans hab.1, hab.2.trans h.aligned hbc.2⟩ (ih _ hrest)
  matcher? hr := h'.matcher? (h.matcher? hr)
  aligned hr := h'.aligned (h.aligned hr)

def Settled (r : Registry) (id : FileTypeId) (slot : Slot) : Prop :=
  ∀ t, (id, t) ∈ r.types → ∀ n, t.pattern? slot = some n → r.pool.isCanonical n = true

/-- `s` is what becomes of the sound registry `r` while slots pass to canonical patterns. -/
structure Advances (held : PatternId → Nat) (r s : Registry) : Prop where
  sound : s.Sound held
  agrees : r.Agrees s
  settled : ∀ id slot, r.Settled id slot → s.Settled id slot

theorem Advances.trans (h : Advances held r s) (h' : Advances held s u) : Advances held r u where
  sound := h'.sound
  agrees := h.agrees.trans h'.agrees
  settled id slot hr := h'.settled id slot (h.settled id slot hr)

theorem Sound.contains (h : r.Sound held) (ht : (id, t) ∈ r.types)
    (hslot : t.pattern? slot = some n) : r.pool.contains n = true :=
  h.holds.contains (List.mem_flatMap.2 ⟨_, ht, FileType.mem_references.2 hslot⟩)

/-- A slot that is left alone. -/
theorem Sound.rel_self (h : r.Sound held) (ht : (id, t) ∈ r.types) {q : Pool}
    (hq : r.pool.Resembles q) (hlive : ∀ n, t.pattern? slot = some n → q.contains n = true) :
    Option.Rel (r.pool.Agree q) (t.pattern? slot) (t.pattern? slot) := by
  cases hslot : t.pattern? slot with
  | none => exact .none
  | some n =>
    obtain ⟨d, hd, -⟩ :=
      h.holds.tagged (slot, n) (List.mem_flatMap.2 ⟨_, ht, FileType.mem_references.2 hslot⟩)
    refine .some ⟨h.contains ht hslot, hlive n hslot, fun _ => hq.meaning n (h.contains ht hslot)
      (hlive n hslot), ?_⟩
    rw [hd, hq.domain? n d hd (hlive n hslot)]

/-- A type that is left alone. -/
theorem Sound.agrees_self (h : r.Sound held) (ht : (id, t) ∈ r.types) {q : Pool}
    (hq : r.pool.Resembles q) (hlive : ∀ slot n, t.pattern? slot = some n → q.contains n = true) :
    t.Agrees r.pool q t :=
  ⟨rfl, fun slot => h.rel_self ht hq (hlive slot)⟩

/-- A slot that passes to a pattern that stands for its own. -/
theorem Sound.agree (h : r.Sound held) (ht : (id, t) ∈ r.types) (hslot : t.pattern? slot = some n)
    {q : Pool} (hstands : Pool.Stands r.pool q n c) : r.pool.Agree q n c := by
  obtain ⟨d, hd, -⟩ :=
    h.holds.tagged (slot, n) (List.mem_flatMap.2 ⟨_, ht, FileType.mem_references.2 hslot⟩)
  refine ⟨h.contains ht hslot, Pool.contains_of_isCanonical hstands.canonical, hstands.meaning, ?_⟩
  rw [hd, hstands.domain? d hd]

/-- A type of which one slot passes to a pattern that stands for its own. -/
theorem Sound.agrees_setPattern (h : r.Sound held) (ht : (id, t) ∈ r.types)
    (hslot : t.pattern? slot = some n) {q : Pool} (hpool : r.pool.Resembles q)
    (hstands : Pool.Stands r.pool q n c)
    (hlive : ∀ slot' m, (t.setPattern c slot).pattern? slot' = some m → q.contains m = true) :
    t.Agrees r.pool q (t.setPattern c slot) := by
  refine ⟨FileType.policy_setPattern .., fun slot' => ?_⟩
  by_cases hne : slot' = slot
  · rw [hne, hslot, FileType.pattern?_setPattern_self]
    exact .some (h.agree ht hslot hstands)
  · rw [FileType.pattern?_setPattern_of_ne hne]
    exact h.rel_self ht hpool fun m hm =>
      hlive slot' m (FileType.pattern?_setPattern_eq_some_iff.2 (Or.inr ⟨hne, hm⟩))

/-- One slot of one type passes from a pattern to a canonical one that stands for it. -/
theorem Sound.advances (h : r.Sound held) {before after : List (FileTypeId × FileType)}
    (htypes : r.types = before ++ (id, t) :: after)
    (hother : ∀ entry ∈ before ++ after, entry.1 ≠ id) (hslot : t.pattern? slot = some n)
    {rest : List (Slot × PatternId)}
    (hrest : (t.setPattern c slot).references.Perm ((slot, c) :: rest)) {q : Pool}
    (hpool : r.pool.Resembles q) (hstands : Pool.Stands r.pool q n c)
    (hholds : q.Holds ((slot, c) :: (rest ++ (before ++ after).flatMap (·.2.references))) held) :
    let s : Registry := { r with pool := q, types := before ++ (id, t.setPattern c slot) :: after }
    Advances held r s ∧ s.Settled id slot := by
  intro s
  have hids : s.types.map (·.1) = r.types.map (·.1) := by simp [s, htypes]
  have hsound : s.Sound held := by
    refine ⟨hholds.perm ?_, hids ▸ h.nodup, hids ▸ h.given⟩
    show List.Perm _ ((before ++ (id, t.setPattern c slot) :: after).flatMap _)
    rw [List.flatMap_append, List.flatMap_append, List.flatMap_cons, ← List.cons_append]
    exact (hrest.symm.append_right _).trans (List.perm_append_comm_assoc ..)
  have hold : ∀ entry, entry ∈ r.types ↔ entry = (id, t) ∨ entry ∈ before ++ after := by
    intro entry
    rw [htypes, List.perm_middle.mem_iff, List.mem_cons]
  have hnew : ∀ entry, entry ∈ s.types ↔ entry = (id, t.setPattern c slot) ∨
      entry ∈ before ++ after := by
    intro entry
    show entry ∈ before ++ _ :: after ↔ _
    rw [List.perm_middle.mem_iff, List.mem_cons]
  have ht : (id, t) ∈ r.types := (hold _).2 (Or.inl rfl)
  have ht' : (id, t.setPattern c slot) ∈ s.types := (hnew _).2 (Or.inl rfl)
  have hunchanged : ∀ entry ∈ before ++ after, entry.1 = entry.1 ∧
      entry.2.Agrees r.pool q entry.2 := fun entry hentry =>
    ⟨rfl, h.agrees_self ((hold _).2 (Or.inr hentry)) hpool fun _ _ =>
      hsound.contains ((hnew _).2 (Or.inr hentry))⟩
  have hchanged : t.Agrees r.pool q (t.setPattern c slot) :=
    h.agrees_setPattern ht hslot hpool hstands fun _ _ => hsound.contains ht'
  refine ⟨⟨hsound, ⟨rfl, ?_, hpool.matcher?, hpool.aligned⟩, ?_⟩, ?_⟩
  · rw [htypes]
    refine List.rel_append (List.forall₂_same.2 fun entry hentry => ?_) (.cons ⟨rfl, hchanged⟩
      (List.forall₂_same.2 fun entry hentry => ?_))
    · exact hunchanged entry (List.mem_append_left _ hentry)
    · exact hunchanged entry (List.mem_append_right _ hentry)
  · intro id' slot' hsettled u hu m hm
    have hlive := hsound.contains hu hm
    rcases (hnew _).1 hu with heq | hentry
    · obtain ⟨rfl, rfl⟩ := Prod.mk.inj heq
      rcases FileType.pattern?_setPattern_eq_some_iff.1 hm with ⟨-, rfl⟩ | ⟨-, hm⟩
      · exact hstands.canonical
      · exact hpool.isCanonical m (hsettled t ht m hm) hlive
    · exact hpool.isCanonical m (hsettled u ((hold _).2 (Or.inr hentry)) m hm) hlive
  · intro u hu m hm
    rcases (hnew _).1 hu with heq | hentry
    · obtain ⟨-, rfl⟩ := Prod.mk.inj heq
      rw [FileType.pattern?_setPattern_self, Option.some.injEq] at hm
      rw [← hm]
      exact hstands.canonical
    · exact absurd rfl (hother _ hentry)

theorem Sound.advances_refl (h : r.Sound held) : Advances held r r where
  sound := h
  agrees :=
    { config := rfl
      types := List.forall₂_same.2 fun _ hentry =>
        ⟨rfl, h.agrees_self hentry (Pool.Resembles.refl _) fun _ _ => h.contains hentry⟩
      matcher? := id
      aligned := id }
  settled _ _ hr := hr

/-- Of the types between which it stands, a slot changes none. -/
theorem map_setPattern {before after : List (FileTypeId × FileType)}
    (hother : ∀ entry ∈ before ++ after, entry.1 ≠ id) (t : FileType) (c : PatternId)
    (slot : Slot) :
    (before ++ (id, t) :: after).map
      (fun entry => if entry.1 = id then (id, entry.2.setPattern c slot) else entry) =
      before ++ (id, t.setPattern c slot) :: after := by
  have hsame : ∀ l ⊆ before ++ after,
      l.map (fun entry => if entry.1 = id then (id, entry.2.setPattern c slot) else entry) = l := by
    intro l hl
    apply (List.map_congr_left fun entry hentry => if_neg (hother entry (hl hentry))).trans
    exact List.map_id' l
  rw [List.map_append, List.map_cons, if_pos rfl, hsame before (List.subset_append_left ..),
    hsame after (List.subset_append_right ..)]

/-- A slot is canonicalized, and nothing happens if its pattern is canonical. -/
theorem Sound.succeeds_canonicalizeSlot (h : r.Sound held) (id : FileTypeId) (slot : Slot) :
    Succeeds (canonicalizeSlot id slot) r fun k s =>
      (Advances held r s ∧ s.Settled id slot) ∧ (r.Settled id slot → k = 0 ∧ s = r) := by
  refine (Succeeds.get (P := fun a s => a = r ∧ s = r) ⟨rfl, rfl⟩).bind ?_
  rintro _ r ⟨rfl, rfl⟩
  split
  case h_1 hnone =>
    refine Succeeds.pure ⟨⟨h.advances_refl, fun t ht n hslot => ?_⟩, fun _ => ⟨rfl, rfl⟩⟩
    rw [(get?_eq_some_iff h.nodup).2 ht, Option.bind_eq_bind, Option.bind_some, hslot] at hnone
    exact nomatch hnone
  case h_2 n hsome =>
    obtain ⟨t, hget, hslot⟩ := Option.bind_eq_some_iff.1 hsome
    have ht : (id, t) ∈ r.types := (get?_eq_some_iff h.nodup).1 hget
    obtain ⟨before, after, htypes, hother⟩ := exists_split h.nodup ht
    obtain ⟨rest, hrefs, hrest⟩ := FileType.references_perm hslot
    have hholds : r.pool.Holds
        ((slot, n) :: (rest ++ (before ++ after).flatMap (·.2.references))) held := by
      apply h.holds.perm
      rw [references, htypes, List.flatMap_append, List.flatMap_append, List.flatMap_cons,
        ← List.cons_append]
      exact (List.perm_append_comm_assoc ..).trans (hrefs.append_right _)
    refine (succeeds_onPool (Edit.succeeds_canonicalize hholds)).bind ?_
    rintro c s ⟨hs, hholds', hextends, hstands, hsame⟩
    split
    case isTrue hc =>
      subst hc
      refine Succeeds.pure ⟨?_, fun hsettled => ⟨rfl, ?_⟩⟩
      · have hadvances :=
          h.advances htypes hother hslot (hrest c) hextends.resembles hstands hholds'
        rwa [FileType.setPattern_self hslot, ← htypes, ← hs] at hadvances
      · rw [hs, (hsame (hsettled t ht c hslot)).2]
    case isFalse hne =>
      obtain ⟨d, hd, hadmits⟩ := hholds.tagged _ List.mem_cons_self
      refine (succeeds_onPool (Edit.succeeds_retain hholds' (hstands.domain? d hd) hadmits)).bind ?_
      rintro _ u ⟨hu, hretained, hpool, hlive⟩
      refine (succeeds_onPool (Edit.succeeds_release (hretained.perm (List.Perm.swap ..)))).bind ?_
      rintro _ v ⟨hv, hreleased, hpool', hlive'⟩
      have hgrown : ∀ m, r.pool.contains m = true → u.pool.contains m = true := fun m hm => by
        rw [hlive, hextends.contains hm]
      have hc : s.pool.contains c = true := Pool.contains_of_isCanonical hstands.canonical
      -- the new pattern is held before the old one is released, and so it stays
      have hstands' : Pool.Stands r.pool v.pool n c :=
        (hstands.resembles hpool (by rw [hlive, hc])).resembles hpool'
          (hreleased.contains List.mem_cons_self)
      have hresembles : r.pool.Resembles v.pool :=
        (hextends.resembles.trans hpool fun m hm _ => hextends.contains hm).trans hpool'
          fun m hm _ => hgrown m hm
      have htypes' : v.types = before ++ (id, t) :: after := by rw [hv, hu, hs, htypes]
      refine (Succeeds.modify (P := fun _ w => w =
        { r with pool := v.pool, types := before ++ (id, t.setPattern c slot) :: after }) ?_).bind
          ?_
      · rw [htypes', map_setPattern hother, hv, hu, hs]
      rintro _ _ rfl
      refine Succeeds.pure ⟨h.advances htypes hother hslot (hrest c) hresembles hstands' hreleased,
        fun hsettled => ?_⟩
      exact absurd (hsame (hsettled t ht n hslot)).1 hne

/-- After `k` changes `s` came out of `r`, and all slots but the pending ones are settled. -/
structure Halfway (held : PatternId → Nat) (r : Registry) (pending : FileTypeId → Slot → Prop)
    (k : Nat) (s : Registry) : Prop where
  advances : Advances held r s
  settled : ∀ id slot, ¬ pending id slot → s.Settled id slot
  unchanged : (∀ id slot, r.Settled id slot) → k = 0 ∧ s = r

theorem Halfway.succeeds_canonicalizeSlot {pending pending' : FileTypeId → Slot → Prop} {k : Nat}
    (h : Halfway held r pending k s) (id : FileTypeId) (slot : Slot)
    (hpending : ∀ id' slot', pending id' slot' → (id' = id ∧ slot' = slot) ∨ pending' id' slot') :
    Succeeds (canonicalizeSlot id slot) s fun k' u => Halfway held r pending' (k + k') u := by
  refine (h.advances.sound.succeeds_canonicalizeSlot id slot).mono ?_
  rintro k' u ⟨⟨hadvances, hsettled⟩, hsame⟩
  refine ⟨h.advances.trans hadvances, fun id' slot' hnot => ?_, fun hall => ?_⟩
  · by_cases hthis : id' = id ∧ slot' = slot
    · rw [hthis.1, hthis.2]
      exact hsettled
    · exact hadvances.settled id' slot' (h.settled id' slot' fun hp =>
        (hpending id' slot' hp).elim hthis hnot)
  · obtain ⟨rfl, rfl⟩ := h.unchanged hall
    obtain ⟨rfl, rfl⟩ := hsame (hall id slot)
    exact ⟨rfl, rfl⟩

theorem Halfway.mono {pending pending' : FileTypeId → Slot → Prop} {k : Nat}
    (h : Halfway held r pending k s) (hpending : ∀ id slot, pending id slot → pending' id slot) :
    Halfway held r pending' k s :=
  { h with settled := fun id slot hnot => h.settled id slot fun hp => hnot (hpending id slot hp) }

/-- All slots are canonicalized, and nothing happens if their patterns are canonical. -/
theorem Sound.succeeds_canonicalizeAll (h : r.Sound held) :
    Succeeds canonicalizeAll r fun k s => Halfway held r (fun _ _ => False) k s := by
  refine (Succeeds.get (P := fun a s => a = r ∧ s = r) ⟨rfl, rfl⟩).bind ?_
  rintro _ r ⟨rfl, rfl⟩
  have hstart : Halfway held r (fun id _ => id ∈ r.types.map (·.1)) 0 r :=
    ⟨h.advances_refl, fun id slot hnot t ht => absurd (List.mem_map_of_mem ht) hnot, fun _ =>
      ⟨rfl, rfl⟩⟩
  refine (Succeeds.forIn (I := fun rest k s =>
    Halfway held r (fun id _ => id ∈ rest.map (·.1)) k s) ?_ r.types
    hstart).bind ?_
  · rintro ⟨id, t⟩ rest k s hs
    refine (Succeeds.forIn (I := fun slots k s =>
      Halfway held r (fun id' slot => id' = id ∧ slot ∈ slots ∨ id' ∈ rest.map (·.1)) k s)
        ?_ [.name, .content]
        (hs.mono ?_)).bind ?_
    · intro slot slots k s hs
      refine (hs.succeeds_canonicalizeSlot id slot ?_).bind fun k' u hu =>
        Succeeds.pure ⟨_, rfl, hu⟩
      rintro id' slot' (⟨rfl, hslot⟩ | hrest)
      · exact (List.mem_cons.1 hslot).imp (fun heq => ⟨rfl, heq⟩) fun hslots => Or.inl ⟨rfl, hslots⟩
      · exact Or.inr (Or.inr hrest)
    · intro id' slot hid
      rw [List.map_cons, List.mem_cons] at hid
      exact hid.imp_left fun heq => ⟨heq, by cases slot <;> simp⟩
    · intro k u hu
      refine Succeeds.pure ⟨k, rfl, hu.mono ?_⟩
      rintro id' slot (⟨-, hslot⟩ | hrest)
      · exact absurd hslot List.not_mem_nil
      · exact hrest
  · exact fun k u hu => Succeeds.pure (hu.mono fun _ _ => List.not_mem_nil)

end Registry

end Sigil
