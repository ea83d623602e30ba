import Sigil.Proofs.Registry.Actions

namespace Sigil

/-- Whether the policy is met, by what is found out about the name and the contents. -/
def Policy.verdict : Policy → (onName onContents : Bool) → Bool
  | .name, onName, _ => onName
  | .contents, _, onContents => onContents
  | .both, onName, onContents => onName && onContents
  | .either, onName, onContents => onName || onContents

def Policy.DecidedBy (p : Policy) (onName : Bool) : Prop :=
  ∀ c c', p.verdict onName c = p.verdict onName c'

theorem Policy.decidedBy_iff {p : Policy} {onName : Bool} :
    p.DecidedBy onName ↔ p.verdict onName true = p.verdict onName false := by
  refine ⟨fun h => h true false, fun h c c' => ?_⟩
  cases c <;> cases c' <;> simp [h]

namespace FileType

variable {t u v : FileType}

/-- The types differ in their patterns at most, and have patterns in the same slots. -/
structure Reslotted (t u : FileType) : Prop where
  rest : { t with namePattern := u.namePattern, contentPattern := u.contentPattern } = u
  slots : ∀ slot, (u.pattern? slot).isSome = (t.pattern? slot).isSome

theorem Reslotted.refl (t : FileType) : t.Reslotted t := ⟨rfl, fun _ => rfl⟩

theorem Reslotted.trans (h : t.Reslotted u) (h' : u.Reslotted v) : t.Reslotted v where
  rest := by rw [← h'.rest, ← h.rest]
  slots slot := (h'.slots slot).trans (h.slots slot)

theorem Reslotted.policy (h : t.Reslotted u) : u.policy = t.policy := by rw [← h.rest]

theorem reslotted_setPattern {slot : Slot} {n : PatternId} (h : t.pattern? slot = some n)
    (c : PatternId) : t.Reslotted (t.setPattern c slot) where
  rest := by cases slot <;> rfl
  slots slot' := by
    by_cases hslot : slot' = slot
    · rw [hslot, pattern?_setPattern_self, h]
      rfl
    · rw [pattern?_setPattern_of_ne hslot]

/-- A type that was completed goes by its only pattern, if it has one pattern alone. -/
theorem policy_of_build {t₀ : FileType} (hbuild : t₀.build = .ok t) (h : t.Reslotted u) :
    u.policy = match u.namePattern.isSome, u.contentPattern.isSome with
      | true, false => .name
      | false, true => .contents
      | _, _ => t₀.policy := by
  have hname : u.namePattern.isSome = t.namePattern.isSome := h.slots .name
  have hcontent : u.contentPattern.isSome = t.contentPattern.isSome := h.slots .content
  rw [h.policy, hname, hcontent]
  unfold build at hbuild
  split at hbuild
  case h_1 => exact nomatch hbuild
  case h_2 hn hc | h_3 hn hc | h_4 hn hc =>
    injection hbuild with hbuild
    subst hbuild
    simp only [hn, hc, Option.isSome_some, Option.isSome_none]

end FileType

namespace Registry

variable {r s u : Registry} {id : FileTypeId} {t : FileType} {slot : Slot}

/-! ## What an action does to the types -/

structure Numbered (r : Registry) : Prop where
  nodup : (r.types.map (·.1)).Nodup
  given : ∀ id ∈ r.types.map (·.1), id.index < r.nextId

/-- The entries have one identifier, and types that differ in their patterns at most. -/
def SameEntry (a b : FileTypeId × FileType) : Prop := b.1 = a.1 ∧ a.2.Reslotted b.2

theorem SameEntry.refl (a : FileTypeId × FileType) : SameEntry a a :=
  ⟨rfl, FileType.Reslotted.refl _⟩

theorem SameEntry.trans {a b c : FileTypeId × FileType} (h : SameEntry a b) (h' : SameEntry b c) :
    SameEntry a c :=
  ⟨h'.1.trans h.1, h.2.trans h'.2⟩

theorem forall₂_sameEntry_trans {as bs cs : List (FileTypeId × FileType)}
    (h : List.Forall₂ SameEntry as bs) (h' : List.Forall₂ SameEntry bs cs) :
    List.Forall₂ SameEntry as cs := by
  induction h generalizing cs with
  | nil => exact h'
  | cons hab _ ih =>
    cases h' with
    | cons hbc hrest => exact .cons (hab.trans hbc) (ih hrest)

structure Reslots (r s : Registry) : Prop where
  types : List.Forall₂ SameEntry r.types s.types
  nextId : s.nextId = r.nextId

theorem Reslots.refl (r : Registry) : r.Reslots r :=
  ⟨List.forall₂_same.2 fun _ _ => SameEntry.refl _, rfl⟩

theorem Reslots.trans (h : r.Reslots s) (h' : s.Reslots u) : r.Reslots u :=
  ⟨forall₂_sameEntry_trans h.types h'.types, h'.nextId.trans h.nextId⟩

theorem map_fst_of_sameEntry {as bs : List (FileTypeId × FileType)}
    (h : List.Forall₂ SameEntry as bs) : bs.map (·.1) = as.map (·.1) := by
  induction h with
  | nil => rfl
  | cons hab _ ih => rw [List.map_cons, List.map_cons, hab.1, ih]

theorem Reslots.numbered (h : r.Reslots s) (hr : r.Numbered) : s.Numbered where
  nodup := by
    rw [map_fst_of_sameEntry h.types]
    exact hr.nodup
  given := by
    rw [map_fst_of_sameEntry h.types, h.nextId]
    exact hr.given

def SameTypes (r s : Registry) : Prop := s.types = r.types ∧ s.nextId = r.nextId

theorem SameTypes.reslots (h : r.SameTypes s) : r.Reslots s := by
  refine ⟨?_, h.2⟩
  rw [h.1]
  exact List.forall₂_same.2 fun _ _ => SameEntry.refl _

theorem SameTypes.trans (h : r.SameTypes s) (h' : s.SameTypes u) : r.SameTypes u :=
  ⟨h'.1.trans h.1, h'.2.trans h.2⟩

theorem yields_onPool {α : Type} (e : Edit α) (r : Registry) :
    Yields (onPool e) r (fun _ s => r.SameTypes s) fun s => r.SameTypes s := by
  unfold Yields onPool
  cases e r.pool <;> exact ⟨rfl, rfl⟩

/-- Edits of the pool one after the other. -/
theorem yields_onPool_bind {α β : Type} {e : Edit α} {f : α → Registering β}
    {Q : β → Registry → Prop} {F : Registry → Prop} (hfail : ∀ s, r.SameTypes s → F s)
    (hf : ∀ a s, r.SameTypes s → Yields (f a) s Q F) : Yields (onPool e >>= f) r Q F :=
  ((yields_onPool e r).mono (fun _ _ h => h) hfail).bind hf

/-- A slot adopts a pattern if it has one. -/
theorem yields_mapM_adopt (slot : Slot) (o : Option PatternId) (r : Registry) :
    Yields (o.mapM fun id => onPool (adopt slot id)) r (fun o' s => o'.isSome = o.isSome ∧
      r.SameTypes s)
      fun s => r.SameTypes s := by
  cases o with
  | none => exact ⟨rfl, rfl, rfl⟩
  | some id =>
    rw [Option.mapM_some, map_eq_pure_bind]
    exact yields_onPool_bind (fun _ h => h) fun _ _ h => Yields.pure ⟨rfl, h⟩

/-- A type that is registered comes last, under a new identifier; a type that is refused is not
there. -/
theorem yields_register (t : FileType) (r : Registry) :
    Yields (register t) r
      (fun id s => id = ⟨r.nextId⟩ ∧ s.nextId = r.nextId + 1 ∧ ∃ u, t.Reslotted u ∧
        s.types = r.types ++ [(id, u)])
      fun s => r.SameTypes s := by
  have hnodes : Yields (forIn t.patterns PUnit.unit fun id _ => do
      let _ ← onPool (Edit.node id)
      return .yield PUnit.unit : Registering PUnit) r (fun _ s => r.SameTypes s) fun s =>
        r.SameTypes s :=
    Yields.forIn (I := fun s => r.SameTypes s) (fun _ _ _ hs => yields_onPool_bind (fun _ h =>
      hs.trans h)
      fun _ _ h => Yields.pure ⟨⟨_, rfl⟩, hs.trans h⟩) _ ⟨rfl, rfl⟩
  refine hnodes.bind fun _ s hs => ?_
  refine ((yields_mapM_adopt .name t.namePattern s).mono (fun _ _ h => h) fun _ h =>
    hs.trans h).bind ?_
  rintro name s' ⟨hname, hs'⟩
  refine ((yields_mapM_adopt .content t.contentPattern s').mono (fun _ _ h => h)
    fun _ h => hs.trans (hs'.trans h)).bind ?_
  rintro content s'' ⟨hcontent, hs''⟩
  obtain ⟨htypes, hnext⟩ := hs.trans (hs'.trans hs'')
  refine ⟨congrArg _ hnext, congrArg (· + 1) hnext,
    { t with namePattern := name, contentPattern := content },
    ⟨rfl, fun slot => ?_⟩, congrArg (· ++ _) htypes⟩
  cases slot
  · exact hname
  · exact hcontent

theorem filter_ne_eq_self (h : r.get? id = none) : r.types.filter (·.1 ≠ id) = r.types := by
  refine List.filter_eq_self.2 fun entry hentry => decide_eq_true fun heq => ?_
  have hother := List.lookup_eq_none_iff.1 h entry hentry
  exact bne_iff_ne.1 hother heq.symm

/-- A type is removed from its place, whether or not its patterns can be released. -/
theorem yields_unregister (id : FileTypeId) (r : Registry) :
    Yields (unregister id) r
      (fun o s => o = r.get? id ∧ s.types = r.types.filter (·.1 ≠ id) ∧ s.nextId = r.nextId)
      fun s => s.types = r.types.filter (·.1 ≠ id) ∧ s.nextId = r.nextId := by
  refine Yields.bind (P := fun a s => a = r ∧ s = r) ⟨rfl, rfl⟩ ?_
  rintro _ r ⟨rfl, rfl⟩
  cases hget : r.get? id with
  | none => exact ⟨rfl, (filter_ne_eq_self hget).symm, rfl⟩
  | some t =>
    refine Yields.bind (P := fun _ s => s.types = r.types.filter (·.1 ≠ id) ∧ s.nextId = r.nextId)
      ⟨rfl, rfl⟩ ?_
    rintro _ s ⟨htypes, hnext⟩
    have hreleases : Yields (forIn t.patterns PUnit.unit fun n _ => do
        onPool (Edit.release n)
        return .yield PUnit.unit : Registering PUnit) s (fun _ u => s.SameTypes u) fun u =>
          s.SameTypes u :=
      Yields.forIn (I := fun u => s.SameTypes u) (fun _ _ _ hs => yields_onPool_bind (fun _ h =>
        hs.trans h)
        fun _ _ h => Yields.pure ⟨⟨_, rfl⟩, hs.trans h⟩) _ ⟨rfl, rfl⟩
    refine (hreleases.mono (fun _ _ hu => hu) fun u hu =>
      ⟨hu.1.trans htypes, hu.2.trans hnext⟩).bind fun _ u hu => ?_
    exact Yields.pure ⟨rfl, hu.1.trans htypes, hu.2.trans hnext⟩

/-- The slot of one type passes to another pattern. -/
theorem Numbered.reslots_setPattern (h : r.Numbered) {n : PatternId} (hget : r.get? id = some t)
    (hslot : t.pattern? slot = some n) (c : PatternId) :
    List.Forall₂ SameEntry r.types (r.types.map fun entry =>
      if entry.1 = id then (id, entry.2.setPattern c slot) else entry) := by
  obtain ⟨before, after, htypes, hother⟩ := exists_split h.nodup ((get?_eq_some_iff h.nodup).1 hget)
  rw [htypes, map_setPattern hother]
  refine List.rel_append (List.forall₂_same.2 fun _ _ => SameEntry.refl _)
    (.cons ⟨rfl, FileType.reslotted_setPattern hslot c⟩ (List.forall₂_same.2 fun _ _ =>
      SameEntry.refl _))

theorem Numbered.yields_canonicalizeSlot (h : r.Numbered) (id : FileTypeId) (slot : Slot) :
    Yields (canonicalizeSlot id slot) r (fun _ s => r.Reslots s) fun s => r.Reslots s := by
  refine Yields.bind (P := fun a s => a = r ∧ s = r) ⟨rfl, rfl⟩ ?_
  rintro _ r ⟨rfl, rfl⟩
  split
  case h_1 => exact Reslots.refl r
  case h_2 n hsome =>
    obtain ⟨t, hget, hslot⟩ := Option.bind_eq_some_iff.1 hsome
    refine yields_onPool_bind (fun _ hs => hs.reslots) fun c s hs => ?_
    split
    case isTrue => exact hs.reslots
    case isFalse =>
      refine yields_onPool_bind (fun _ hs' => (hs.trans hs').reslots) fun _ s' hs' => ?_
      refine yields_onPool_bind (fun _ hs'' => (hs.trans (hs'.trans hs'')).reslots)
        fun _ s'' hs'' => ?_
      obtain ⟨htypes, hnext⟩ := hs.trans (hs'.trans hs'')
      refine ⟨?_, hnext⟩
      show List.Forall₂ _ _ (s''.types.map _)
      rw [htypes]
      exact h.reslots_setPattern hget hslot c

/-- What canonicalizing a slot keeps, canonicalizing all of them keeps. -/
theorem yields_canonicalizeAll_of {I F : Registry → Prop} (h : I r)
    (step : ∀ id slot s, I s → Yields (canonicalizeSlot id slot) s (fun _ u => I u) F) :
    Yields canonicalizeAll r (fun _ s => I s) F := by
  refine Yields.bind (P := fun a s => a = r ∧ s = r) ⟨rfl, rfl⟩ ?_
  rintro _ r ⟨rfl, rfl⟩
  refine (Yields.forIn (I := I) (fun entry k s hs => ?_) r.types h).bind fun _ _ hs =>
    Yields.pure hs
  refine (Yields.forIn (I := I) (fun slot k s hs => ?_) [Slot.name, Slot.content] hs).bind
    fun k' s' hs' => Yields.pure ⟨⟨k', rfl⟩, hs'⟩
  exact (step entry.1 slot s hs).bind fun k' s' hs' => Yields.pure ⟨⟨_, rfl⟩, hs'⟩

theorem Numbered.yields_canonicalizeAll (h : r.Numbered) :
    Yields canonicalizeAll r (fun _ s => r.Reslots s) fun s => r.Reslots s :=
  yields_canonicalizeAll_of (Reslots.refl r) fun id slot _ hs =>
    ((hs.numbered h).yields_canonicalizeSlot id slot).mono (fun _ _ h' => hs.trans h') fun _ h' =>
      hs.trans h'

/-! ## The types of a history -/

namespace Action

def registered? (r : Registry) : Action → Option (FileTypeId × FileType)
  | register t =>
    match Registry.register t r with
    | .ok id _ => some (id, t)
    | .error _ _ => none
  | _ => none

def removes : Action → FileTypeId → Bool
  | unregister i, id => i = id
  | _, _ => false

end Action

/-- The types that a history registers and does not remove again, in the order of their
registration. -/
def enrolled (r : Registry) : List Action → List (FileTypeId × FileType)
  | [] => []
  | a :: later =>
    (a.registered? r).toList.filter (fun entry => !later.any (·.removes entry.1)) ++
      (a.apply r).enrolled later

/-- What one action does to the types: those that it does not remove stay in their order, and one
that it registers comes last, under the next identifier. -/
structure Turns (r : Registry) (a : Action) (s : Registry) : Prop where
  types : List.Forall₂ SameEntry (r.types.filter (fun entry => !a.removes entry.1) ++
    (a.registered? r).toList) s.types
  nextId : s.nextId = r.nextId + (a.registered? r).toList.length
  fresh : ∀ entry ∈ a.registered? r, entry.1 = ⟨r.nextId⟩

theorem Reslots.turns {a : Action} (h : r.Reslots s) (hkeep : ∀ id, a.removes id = false)
    (hnone : a.registered? r = none) : Turns r a s where
  types := by
    rw [hnone, Option.toList_none, List.append_nil,
      List.filter_eq_self.2 fun entry _ => by rw [hkeep]; rfl]
    exact h.types
  nextId := by rw [hnone, h.nextId, Option.toList_none, List.length_nil, Nat.add_zero]
  fresh _ hentry := by
    rw [hnone] at hentry
    exact nomatch hentry

theorem Numbered.turns (h : r.Numbered) (a : Action) : Turns r a (a.apply r) := by
  cases a with
  | edit c => exact Reslots.turns (SameTypes.reslots ⟨rfl, rfl⟩) (fun _ => rfl) rfl
  | register t =>
    have hyields := yields_register t r
    rw [Action.apply, Registering.after]
    cases hrun : Registry.register t r with
    | error e s =>
      refine Reslots.turns (hyields.of_error hrun).reslots (fun _ => rfl) ?_
      rw [Action.registered?, hrun]
    | ok id s =>
      obtain ⟨hid, hnext, u, htu, htypes⟩ := hyields.of_ok hrun
      have hnew : (Action.register t).registered? r = some (id, t) := by
        rw [Action.registered?, hrun]
      refine ⟨?_, by rw [hnew, hnext]; rfl, fun entry hentry => ?_⟩
      · have hall : r.types.filter (fun entry => !(Action.register t).removes entry.1) = r.types :=
          List.filter_eq_self.2 fun _ _ => rfl
        rw [hnew, htypes, hall]
        exact List.rel_append (List.forall₂_same.2 fun _ _ => SameEntry.refl _)
          (.cons ⟨rfl, htu⟩ .nil)
      · rw [hnew] at hentry
        rw [← Option.some.inj hentry, ← hid]
  | unregister id =>
    have hremoved : ∀ s : Registry, s.types = r.types.filter (·.1 ≠ id) ∧ s.nextId = r.nextId →
        Turns r (.unregister id) s := by
      rintro s ⟨htypes, hnext⟩
      refine ⟨?_, hnext, fun _ hentry => absurd hentry (Option.not_mem_none _)⟩
      rw [show (Action.unregister id).registered? r = none from rfl, Option.toList_none,
        List.append_nil, htypes]
      have hsame : r.types.filter (fun entry => !(Action.unregister id).removes entry.1) =
          r.types.filter (·.1 ≠ id) := by
        refine List.filter_congr fun entry _ => ?_
        rw [Action.removes, ← decide_not]
        exact decide_eq_decide.2 ne_comm
      rw [hsame]
      exact List.forall₂_same.2 fun _ _ => SameEntry.refl _
    have hyields := yields_unregister id r
    rw [Action.apply, Registering.after]
    cases hrun : Registry.unregister id r with
    | error e s => exact hremoved s (hyields.of_error hrun)
    | ok o s => exact hremoved s (hyields.of_ok hrun).2
  | canonicalizeAll =>
    have hyields := h.yields_canonicalizeAll
    rw [Action.apply, Registering.after]
    cases hrun : Registry.canonicalizeAll r with
    | error e s => exact Reslots.turns (hyields.of_error hrun) (fun _ => rfl) rfl
    | ok k s => exact Reslots.turns (hyields.of_ok hrun) (fun _ => rfl) rfl

theorem Turns.numbered {a : Action} (h : Turns r a s) (hr : r.Numbered) : s.Numbered := by
  have hsublist : ((r.types.filter fun entry => !a.removes entry.1).map (·.1)).Sublist
      (r.types.map (·.1)) :=
    List.filter_sublist.map _
  have hids := map_fst_of_sameEntry h.types
  rw [List.map_append] at hids
  constructor
  · rw [hids, List.nodup_append]
    refine ⟨hr.nodup.sublist hsublist, ?_, ?_⟩
    · cases a.registered? r
      · exact List.nodup_nil
      · exact List.nodup_singleton _
    · -- the new identifier has not been given out yet
      rintro id hid _ hnew rfl
      obtain ⟨entry, hentry, rfl⟩ := List.mem_map.1 hnew
      have hlt := hr.given _ (hsublist.subset hid)
      rw [h.fresh entry (Option.mem_toList.1 hentry)] at hlt
      exact Nat.lt_irrefl _ hlt
  · intro id hid
    rw [hids, List.mem_append] at hid
    rw [h.nextId]
    rcases hid with hold | hnew
    · exact Nat.lt_add_right _ (hr.given id (hsublist.subset hold))
    · obtain ⟨entry, hentry, rfl⟩ := List.mem_map.1 hnew
      rw [h.fresh entry (Option.mem_toList.1 hentry)]
      exact Nat.lt_add_of_pos_right (List.length_pos_of_mem hentry)

theorem numbered_ofConfig (config : Config) : (ofConfig config).Numbered :=
  ⟨List.nodup_nil, fun _ hid => absurd hid List.not_mem_nil⟩

theorem Numbered.foldl_apply (h : r.Numbered) (as : List Action) :
    (as.foldl (fun r a => a.apply r) r).Numbered := by
  induction as generalizing r with
  | nil => exact h
  | cons a as ih => exact ih ((h.turns a).numbered h)

/-- The types after a history are those that were there and are not removed, and those that it
registers and does not remove again, in this order. -/
theorem Numbered.forall₂_types (h : r.Numbered) (as : List Action) :
    List.Forall₂ SameEntry (r.types.filter (fun entry => !as.any (·.removes entry.1)) ++
      r.enrolled as)
      (as.foldl (fun r a => a.apply r) r).types := by
  induction as generalizing r with
  | nil =>
    have hall : r.types.filter (fun entry =>
        !([] : List Action).any (·.removes entry.1)) = r.types :=
      List.filter_eq_self.2 fun _ _ => rfl
    rw [enrolled, List.append_nil, hall]
    exact (Reslots.refl r).types
  | cons a as ih =>
    have hturn := h.turns a
    refine forall₂_sameEntry_trans ?_ (ih (hturn.numbered h))
    -- what is removed later is removed before and after this action alike
    have hfilter : List.Forall₂ SameEntry
        ((r.types.filter (fun entry => !a.removes entry.1) ++ (a.registered? r).toList).filter
          fun entry => !as.any (·.removes entry.1))
        ((a.apply r).types.filter fun entry => !as.any (·.removes entry.1)) := by
      refine List.rel_filter (fun x y hxy => ?_) hturn.types
      show (!as.any (·.removes x.1)) = true ↔ (!as.any (·.removes y.1)) = true
      rw [hxy.1]
    rw [List.filter_append, List.filter_filter] at hfilter
    have hboth : r.types.filter (fun entry => !(a :: as).any (·.removes entry.1)) =
        r.types.filter fun entry => (!as.any (·.removes entry.1)) && !a.removes entry.1 := by
      refine List.filter_congr fun entry _ => ?_
      rw [List.any_cons, Bool.not_or, Bool.and_comm]
    rw [enrolled, hboth, ← List.append_assoc]
    exact List.rel_append hfilter (List.forall₂_same.2 fun _ _ => SameEntry.refl _)

/-! ## The first type -/

section Recognition

variable {subject : Subject} {region : BitRange} {policy : Option Policy}

theorem isOf_of_mem (hnodup : (r.types.map (·.1)).Nodup) (ht : (id, t) ∈ r.types) :
    r.isOf id subject region policy = r.typeMatches t subject region policy := by
  rw [isOf, (get?_eq_some_iff hnodup).2 ht]

def Comes (types : List (FileTypeId × FileType)) (id : FileTypeId) (no : FileTypeId → Prop) :
    Prop :=
  ∃ before t after, types = before ++ (id, t) :: after ∧ ∀ entry ∈ before, no entry.1

theorem comes_cons_iff {types : List (FileTypeId × FileType)} {first : FileTypeId × FileType}
    {no : FileTypeId → Prop} :
    Comes (first :: types) id no ↔ id = first.1 ∨ no first.1 ∧ Comes types id no := by
  constructor
  · rintro ⟨before, t, after, htypes, hbefore⟩
    cases before with
    | nil =>
      rw [List.nil_append, List.cons.injEq] at htypes
      exact Or.inl (congrArg Prod.fst htypes.1).symm
    | cons entry before =>
      rw [List.cons_append, List.cons.injEq] at htypes
      obtain ⟨rfl, rfl⟩ := htypes
      exact Or.inr ⟨hbefore first List.mem_cons_self, before, t, after, rfl,
        fun entry hentry => hbefore entry (List.mem_cons_of_mem _ hentry)⟩
  · rintro (rfl | ⟨hno, before, t, after, rfl, hbefore⟩)
    · exact ⟨[], first.2, types, rfl, fun _ hentry => absurd hentry List.not_mem_nil⟩
    · exact ⟨first :: before, t, after, rfl, List.forall_mem_cons.2 ⟨hno, hbefore⟩⟩

theorem not_comes_nil {no : FileTypeId → Prop} : ¬ Comes [] id no := by
  rintro ⟨before, t, after, htypes, -⟩
  cases before <;> exact nomatch htypes

/-- The search among some of the registered types. -/
theorem firstOf_spec (hnodup : (r.types.map (·.1)).Nodup) (subject : Subject) (region : BitRange)
    (policy : Option Policy) {types : List (FileTypeId × FileType)} (htypes : types ⊆ r.types) :
    (∀ id, r.firstOf subject region policy types = .ok (some id) ↔
        r.isOf id subject region policy = .ok true ∧
          Comes types id fun id => r.isOf id subject region policy = .ok false) ∧
      (∀ e, r.firstOf subject region policy types = .error e ↔
        ∃ id, r.isOf id subject region policy = .error e ∧
          Comes types id fun id => r.isOf id subject region policy = .ok false) ∧
      (r.firstOf subject region policy types = .ok none ↔
        ∀ entry ∈ types, r.isOf entry.1 subject region policy = .ok false) := by
  induction types with
  | nil =>
    rw [firstOf]
    refine ⟨fun id => iff_of_false (by simp) fun h => not_comes_nil h.2, fun e =>
      iff_of_false (by simp) ?_, fun _ => List.forall_mem_nil _, fun _ => rfl⟩
    rintro ⟨id, -, hid⟩
    exact not_comes_nil hid
  | cons entry types ih =>
    obtain ⟨id₀, t₀⟩ := entry
    obtain ⟨hok, herror, hnone⟩ := ih fun entry hentry => htypes (List.mem_cons_of_mem _ hentry)
    have hfirst : r.typeMatches t₀ subject region policy = r.isOf id₀ subject region policy :=
      (isOf_of_mem hnodup (htypes List.mem_cons_self)).symm
    rw [firstOf, hfirst]
    simp only [comes_cons_iff, List.forall_mem_cons]
    cases hverdict : r.isOf id₀ subject region policy with
    | error e₀ => grind
    | ok b =>
      cases b with
      | true => grind
      | false => grind

/-- The name says yes if there is a pattern for it, the path has the part that this pattern is
about, and they match. -/
theorem nameMatches_iff : r.nameMatches t subject = true ↔
    ∃ n part, t.namePattern = some n ∧
      subject.nameIn ((r.pool.domain? n).getD .fileName) = some part ∧
      (r.pool.matchIn n part.toArray .full .search).isSome = true := by
  rw [nameMatches_eq]
  cases t.namePattern with
  | none => simp
  | some n => simp [Option.any_eq_true]

/-- Without a pattern or without contents the contents say no. -/
theorem contentsMatch_eq_false (h : t.contentPattern = none ∨ subject.contents = .unknown) :
    r.contentsMatch t subject region = .ok false := by
  unfold contentsMatch
  rcases h with h | h
  · rw [h]
  · rw [h]
    cases t.contentPattern <;> rfl

/-- The pattern for the contents is looked for in the given region, in the mode that is
configured. -/
theorem contentsMatch_bytes {n : PatternId} {data : Buffer} (hn : t.contentPattern = some n)
    (hdata : subject.contents = .bytes data) :
    r.contentsMatch t subject region =
      .ok (r.pool.matchIn n data region r.config.content.mode).isSome := by
  unfold contentsMatch
  rw [hn, hdata]

/-- In a file it is looked for page by page, which may fail. -/
theorem contentsMatch_file {n : PatternId} {file : File} {size : Option Nat}
    (hn : t.contentPattern = some n) (hfile : subject.contents = .file file size) :
    let found := r.pool.matchFile n file size region r.config.content.mode r.config.content pageSize
    (∀ hit, found = .ok hit → r.contentsMatch t subject region = .ok hit.isSome) ∧
      ∀ e, found = .error e → r.contentsMatch t subject region = .error e := by
  intro found
  have hcontents : r.contentsMatch t subject region = (·.isSome) <$> found := by
    unfold contentsMatch
    rw [hn, hfile]
  refine ⟨fun hit hhit => ?_, fun e he => ?_⟩
  · rw [hcontents, hhit]
    rfl
  · rw [hcontents, he]
    rfl

/-- A type applies its policy. Contents that cannot be had are a failure unless the name decides. -/
theorem typeMatches_spec (r : Registry) (t : FileType) (subject : Subject) (region : BitRange)
    (policy : Option Policy) :
    let effective := policy.getD t.policy
    let name := r.nameMatches t subject
    (∀ b, r.contentsMatch t subject region = .ok b →
        r.typeMatches t subject region policy = .ok (effective.verdict name b)) ∧
      ∀ e, r.contentsMatch t subject region = .error e →
        (effective.DecidedBy name → ∀ b, r.typeMatches t subject region policy =
          .ok (effective.verdict name b)) ∧
          (¬ effective.DecidedBy name → r.typeMatches t subject region policy = .error e) := by
  intro effective name
  unfold typeMatches
  simp only [Policy.decidedBy_iff, effective, name]
  cases policy.getD t.policy <;> cases r.nameMatches t subject <;> simp +contextual [Policy.verdict]

/-- With any history, a registry has the types that it was given and that were not removed again, in
the order of their registration. A subject is of the first one that says so where those before it
say no, and the first failure ends the search. Each type applies its policy or the one that is asked
for, where a side without a pattern or without its part of the subject says no, and fails only if
the contents cannot be had and the name does not decide. The contents say yes if the pattern for
them is found in the region. -/
theorem run_first_match (config : Config) (as : List Action) :
    let r := as.foldl (fun r a => a.apply r) (ofConfig config)
    List.Forall₂ (fun given entry => entry.1 = given.1 ∧ given.2.Reslotted entry.2 ∧
        ∀ t₀ : FileType, t₀.build = .ok given.2 →
          entry.2.policy = match entry.2.namePattern.isSome, entry.2.contentPattern.isSome with
            | true, false => .name
            | false, true => .contents
            | _, _ => t₀.policy)
      ((ofConfig config).enrolled as) r.types ∧
    (r.types.map (·.1)).Nodup ∧
    ∀ subject region policy,
      (∀ id, r.typeOf subject region policy = .ok (some id) ↔
        r.isOf id subject region policy = .ok true ∧
          Comes r.types id fun id => r.isOf id subject region policy = .ok false) ∧
      (∀ e, r.typeOf subject region policy = .error e ↔
        ∃ id, r.isOf id subject region policy = .error e ∧
          Comes r.types id fun id => r.isOf id subject region policy = .ok false) ∧
      (r.typeOf subject region policy = .ok none ↔
        ∀ entry ∈ r.types, r.isOf entry.1 subject region policy = .ok false) ∧
      (∀ id ∉ r.types.map (·.1), r.isOf id subject region policy = .ok false) ∧
      ∀ id t, (id, t) ∈ r.types →
        let effective := policy.getD t.policy
        let name := r.nameMatches t subject
        (∀ b, r.contentsMatch t subject region = .ok b →
          r.isOf id subject region policy = .ok (effective.verdict name b)) ∧
        (∀ e, r.contentsMatch t subject region = .error e →
          (effective.DecidedBy name → ∀ b, r.isOf id subject region policy =
            .ok (effective.verdict name b)) ∧
            (¬ effective.DecidedBy name → r.isOf id subject region policy = .error e)) ∧
        (name = true ↔ ∃ n part, t.namePattern = some n ∧
          subject.nameIn ((r.pool.domain? n).getD .fileName) = some part ∧
            (r.pool.matchIn n part.toArray .full .search).isSome = true) ∧
        (t.contentPattern = none ∨ subject.contents = .unknown →
          r.contentsMatch t subject region = .ok false) ∧
        ∀ n, t.contentPattern = some n →
          (∀ data, subject.contents = .bytes data → r.contentsMatch t subject region =
            .ok (r.pool.matchIn n data region r.config.content.mode).isSome) ∧
          ∀ file size, subject.contents = .file file size →
            let found :=
              r.pool.matchFile n file size region r.config.content.mode r.config.content pageSize
            (∀ hit, found = .ok hit → r.contentsMatch t subject region = .ok hit.isSome) ∧
              ∀ e, found = .error e → r.contentsMatch t subject region = .error e := by
  intro r
  have hnumbered : r.Numbered := (numbered_ofConfig config).foldl_apply as
  refine ⟨?_, hnumbered.nodup, fun subject region policy => ?_⟩
  · refine ((numbered_ofConfig config).forall₂_types as).imp fun given entry h => ?_
    exact ⟨h.1, h.2, fun t₀ hbuild => FileType.policy_of_build hbuild h.2⟩
  · obtain ⟨hsome, herror, hnone⟩ := firstOf_spec hnumbered.nodup subject region policy
      (List.Subset.refl r.types)
    refine ⟨hsome, herror, hnone, fun id hid => ?_, fun id t ht => ?_⟩
    · rw [isOf, get?, List.lookup_eq_none_iff.2 fun entry hentry => bne_iff_ne.2 fun heq => ?_]
      exact hid (heq ▸ List.mem_map_of_mem hentry)
    · rw [isOf_of_mem hnumbered.nodup ht]
      obtain ⟨hok, hfail⟩ := typeMatches_spec r t subject region policy
      exact ⟨hok, hfail, nameMatches_iff, contentsMatch_eq_false, fun n hn =>
        ⟨fun data hdata => contentsMatch_bytes hn hdata, fun file size hfile =>
          contentsMatch_file hn hfile⟩⟩

end Recognition

end Registry

end Sigil
