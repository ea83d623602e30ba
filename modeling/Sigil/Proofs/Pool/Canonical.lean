import Sigil.Proofs.Pool.Simplify

namespace Sigil.Pool

open Relation (ReflTransGen TransGen)

variable {p q : Pool} {id m n : PatternId} {k : Kind PatternId}

theorem extends_represent (p : Pool) (k : Kind PatternId) (origin : PatternId) :
    p.Extends (p.represent k origin).2 := by
  have hextends := extends_simplify p k
  unfold Pool.represent
  split
  case h_1 hanswer =>
    rw [hanswer] at hextends
    exact hextends
  case h_2 hanswer =>
    rw [hanswer] at hextends
    exact hextends.trans (extends_intern _ _ (fun haligned => haligned origin) _)

theorem WellFormed.represent (h : p.WellFormed) (hk : k.Valid)
    (hsubs : ∀ s ∈ k.subs, p.isCanonical s = true) (origin : PatternId) :
    let c := (p.represent k origin).1
    let q := (p.represent k origin).2
    Refines (fun n => n = origin ∧ n = c) p q ∧ q.isCanonical c = true ∧
      (p.Aligned → q.meaning c = (k.map p.meaning).meaning) := by
  obtain ⟨hrefines, hmeans⟩ := answers_simplify h hk hsubs
  unfold Pool.represent
  split
  case h_1 c q hanswer =>
    rw [hanswer] at hrefines hmeans
    exact ⟨hrefines.mono fun _ => False.elim, hmeans.1, fun haligned =>
      hmeans.2 (hrefines.aligned haligned)⟩
  case h_2 k' q hanswer =>
    rw [hanswer] at hrefines hmeans
    obtain ⟨hvalid, hcanonical, hmeaning⟩ := hmeans
    have hq : q.WellFormed := hrefines.wellFormed
    obtain ⟨hinterned, hkind, hc⟩ :=
      hq.intern hvalid hcanonical (fun haligned => haligned origin) (some origin)
    have horigin : Refines
        (fun n => n = origin ∧ n = (q.intern k' (q.lead origin) (some origin)).1) q
          (q.intern k' (q.lead origin) (some origin)).2 := by
      apply hinterned.mono
      intro n hn
      exact ⟨(Option.some.inj hn.1).symm, hn.2⟩
    refine ⟨(hrefines.mono fun _ => False.elim).trans horigin, hc, fun haligned => ?_⟩
    rw [hinterned.wellFormed.meaning_eq hkind,
      hinterned.map_meaning fun s hs => contains_of_isCanonical (hcanonical s hs)]
    exact hmeaning (hrefines.aligned haligned)

/-- A context is represented by a context of its domain. -/
theorem WellFormed.domain?_represent (h : p.WellFormed) {d : Domain} {s : PatternId}
    (hs : p.isCanonical s = true) (origin : PatternId) :
    (p.represent (.ctx d s) origin).2.domain? (p.represent (.ctx d s) origin).1 = some d := by
  have hinterned : (p.intern (.ctx d s) (p.lead origin) (some origin)).2.domain?
      (p.intern (.ctx d s) (p.lead origin) (some origin)).1 = some d := by
    have hsubs : ∀ t ∈ (Kind.ctx d s).subs, p.isCanonical t = true := by
      intro t ht
      rwa [List.mem_singleton.1 ht]
    obtain ⟨-, hkind, -⟩ := h.intern (k := .ctx d s) trivial hsubs
      (fun haligned => haligned origin) (some origin)
    exact domain?_eq_some.2 ⟨s, hkind⟩
  unfold Pool.represent Pool.simplify
  dsimp only
  split
  case h_1 c q hanswer =>
    -- only a context of the same domain is taken as it is
    rw [Prod.mk.injEq] at hanswer
    obtain ⟨hexisting, rfl⟩ := hanswer
    split at hexisting
    case h_1 e t hkind =>
      split at hexisting
      case isTrue he =>
        obtain rfl := Simplified.existing.inj hexisting
        exact domain?_eq_some.2 ⟨t, he ▸ hkind⟩
      case isFalse => exact nomatch hexisting
    case h_2 => exact nomatch hexisting
  case h_2 k q hanswer =>
    rw [Prod.mk.injEq] at hanswer
    obtain ⟨hkind, rfl⟩ := hanswer
    have hk : k = .ctx d s := by
      split at hkind
      · split at hkind
        · exact nomatch hkind
        · exact (Simplified.kind.inj hkind).symm
      · exact (Simplified.kind.inj hkind).symm
    rwa [hk]

/-! ## Runs of a canonicalization -/

def work (fuel : Nat) (id : PatternId) (k : Kind PatternId)
    (st : Pool × List (PatternId × PatternId)) : PatternId × Pool × List (PatternId × PatternId) :=
  let (k', p, known) := (k.traverse (canonicalOf fuel)).run st
  ((p.represent k' id).1, (p.represent k' id).2, (id, (p.represent k' id).1) :: known)

theorem run_canonicalOf (fuel : Nat) (id : PatternId) (st : Pool × List (PatternId × PatternId)) :
    (canonicalOf (fuel + 1) id).run st =
      match st.2.lookup id, st.1.get? id with
      | some c, _ => (c, st)
      | none, none => (id, st)
      | none, some node =>
        if node.canonical then (id, st.1, (id, id) :: st.2) else work fuel id node.kind st := by
  obtain ⟨p, known⟩ := st
  rw [canonicalOf]
  cases hknown : known.lookup id with
  | some c =>
    simp only [StateT.run_bind, StateT.run_get, pure_bind, hknown]
    rfl
  | none =>
    cases hnode : p.get? id with
    | none =>
      simp only [StateT.run_bind, StateT.run_get, pure_bind, hknown, hnode]
      rfl
    | some node =>
      simp only [StateT.run_bind, StateT.run_get, pure_bind, hknown, hnode]
      split <;> rfl

abbrev Progress := Pool × List (PatternId × PatternId)

inductive InTurn (Q : PatternId → Progress → PatternId → Progress → Prop) :
    List PatternId → Progress → List PatternId → Progress → Prop where
  | nil (st : Progress) : InTurn Q [] st [] st
  | cons {id c : PatternId} {ids cs : List PatternId} {st st' st'' : Progress}
    (first : Q id st c st')
    (rest : InTurn Q ids st' cs st'') : InTurn Q (id :: ids) st (c :: cs) st''

section Induction

variable {p₀ : Pool} {I : Progress → Prop} {Q : PatternId → Progress → PatternId → Progress → Prop}
  {st st' : Progress}

theorem InTurn.invariant {ids cs : List PatternId} (h : InTurn Q ids st cs st')
    (inv : ∀ id ∈ ids, ∀ st c st', Q id st c st' → I st → I st') (hst : I st) : I st' := by
  induction h with
  | nil => exact hst
  | cons first _ ih =>
    exact ih (fun id hid => inv id (List.mem_cons_of_mem _ hid))
      (inv _ List.mem_cons_self _ _ _ first hst)

theorem inTurn_mapM {find : PatternId → Canonicalizing PatternId} {ids : List PatternId}
    (inv : ∀ id st c st', Q id st c st' → I st')
    (h : ∀ s ∈ ids, ∀ st, I st → Q s st ((find s).run st).1 ((find s).run st).2) (hst : I st) :
    InTurn Q ids st ((ids.mapM find).run st).1 ((ids.mapM find).run st).2 := by
  induction ids generalizing st with
  | nil => exact .nil st
  | cons s ids ih =>
    have hfirst := h s List.mem_cons_self st hst
    rw [List.mapM_cons]
    exact .cons hfirst (ih (fun t ht => h t (List.mem_cons_of_mem s ht)) (inv _ _ _ _ hfirst))

theorem inTurn_traverse {find : PatternId → Canonicalizing PatternId}
    (inv : ∀ id st c st', Q id st c st' → I st')
    (h : ∀ s ∈ k.subs, ∀ st, I st → Q s st ((find s).run st).1 ((find s).run st).2) (hst : I st) :
    let k' := ((k.traverse find).run st).1
    InTurn Q k.subs st k'.subs ((k.traverse find).run st).2 ∧ k.Rel (fun _ _ => True) k' := by
  have htrue : ∀ {ids cs st st'}, InTurn Q ids st cs st' →
      List.Forall₂ (fun _ _ => True) ids cs := by
    intro ids cs st st' hall
    induction hall with
    | nil => exact .nil
    | cons _ _ ih => exact .cons trivial ih
  cases k with
  | lit l => exact ⟨.nil st, .lit l⟩
  | any bits => exact ⟨.nil st, .any bits⟩
  | range lo hi => exact ⟨.nil st, .range lo hi⟩
  | anchor a => exact ⟨.nil st, .anchor a⟩
  | alt subs => exact ⟨inTurn_mapM inv h hst, .alt (htrue (inTurn_mapM inv h hst))⟩
  | seq subs => exact ⟨inTurn_mapM inv h hst, .seq (htrue (inTurn_mapM inv h hst))⟩
  | rep s r => exact ⟨.cons (h s (List.mem_singleton_self s) st hst) (.nil _), .rep trivial r⟩
  | ctx d s => exact ⟨.cons (h s (List.mem_singleton_self s) st hst) (.nil _), .ctx d trivial⟩

/-- Induction along a canonicalization: what holds of patterns that are known or canonical, and of
those of which the sub-patterns were worked on in turn, holds of all patterns under a live one. The
pool that the run started from stays part of the pool throughout, so that no path is longer than the
fuel. -/
theorem Linked.canonicalOf_induct (h₀ : p₀.Linked) (extends_start : ∀ st, I st → p₀.Extends st.1)
    (inv : ∀ id st c st', Q id st c st' → I st')
    (known : ∀ id st c, I st → p₀.contains id = true → st.2.lookup id = some c → Q id st c st)
    (canonical : ∀ id st, I st → p₀.contains id = true → st.2.lookup id = none →
      st.1.isCanonical id = true → Q id st id (st.1, (id, id) :: st.2))
    (work : ∀ id k k' st st', I st → st.2.lookup id = none → p₀.kind? id = some k →
      st.1.isCanonical id = false → InTurn Q k.subs st k'.subs st' → k.Rel (fun _ _ => True) k' →
        Q id st (st'.1.represent k' id).1
          ((st'.1.represent k' id).2, (id, (st'.1.represent k' id).1) :: st'.2))
    (hid : p₀.contains id = true) (hst : I st) :
    Q id st ((Pool.canonicalOf p₀.nodes.size id).run st).1
      ((Pool.canonicalOf p₀.nodes.size id).run st).2 := by
  refine h₀.fuel_induction (P := fun fuel id => p₀.contains id = true → ∀ st, I st →
    Q id st ((canonicalOf fuel id).run st).1 ((canonicalOf fuel id).run st).2) ?_ hid hid st hst
  intro fuel m ih hm st hst
  rw [run_canonicalOf]
  obtain ⟨k, hk⟩ := kind?_isSome_iff.2 hm
  have hkind := (extends_start st hst).kind?_eq_some hk
  split
  case h_1 hc => exact known m st _ hst hm hc
  case h_2 _ hnode =>
    rw [Pool.kind?, hnode] at hkind
    cases hkind
  case h_3 node hnew hnode =>
    rw [Pool.kind?, hnode, Option.map_some, Option.some.injEq] at hkind
    have hcanonical : st.1.isCanonical m = node.canonical := by
      rw [isCanonical, hnode, Option.any_some]
    split
    case isTrue hself => exact canonical m st hst hm hnew (hcanonical.trans hself)
    case isFalse hself =>
      obtain ⟨hturn, hrel⟩ := inTurn_traverse inv
        (fun s hs => ih s ⟨k, hk, hs⟩ (h₀.contains_sub ⟨k, hk, hs⟩)) hst
      rw [hkind]
      exact work m k _ st _ hst hnew hk (hcanonical.trans (Bool.not_eq_true _ ▸ hself)) hturn hrel

end Induction

/-! ## Working on a pattern -/

section Work

variable {p₀ : Pool} {st : Pool × List (PatternId × PatternId)}

/-- `c` is a canonical pattern of `p` that means what `id` means in `p₀`, and a context of the same
domain if `id` is one. -/
structure Stands (p₀ p : Pool) (id c : PatternId) : Prop where
  canonical : p.isCanonical c = true
  meaning : p₀.Aligned → p.meaning c = p₀.meaning id
  domain? : ∀ d, p₀.domain? id = some d → p.domain? c = some d

theorem Stands.refines {appointed : PatternId → Prop} {c : PatternId} (h : Stands p₀ p id c)
    (hq : Refines appointed p q) : Stands p₀ q id c where
  canonical := hq.isCanonical c h.canonical
  meaning haligned := (hq.meaning (contains_of_isCanonical h.canonical)).trans (h.meaning haligned)
  domain? d hd := hq.domain? (h.domain? d hd)

structure Sound (p₀ : Pool) (st : Pool × List (PatternId × PatternId)) : Prop where
  extends_start : p₀.Extends st.1
  wellFormed : st.1.WellFormed
  known : ∀ id c, st.2.lookup id = some c → Stands p₀ st.1 id c

theorem Sound.refines {appointed : PatternId → Prop} (h : Sound p₀ st)
    (hq : Refines appointed st.1 q) : Sound p₀ (q, st.2) where
  extends_start := h.extends_start.trans hq.toExtends
  wellFormed := hq.wellFormed
  known id c hc := (h.known id c hc).refines hq

/-- What is right of all that is known stays right when one more answer is. -/
theorem forall_lookup_cons {P : PatternId → PatternId → Prop} {known : List (PatternId × PatternId)}
    {c : PatternId} (h : ∀ n d, known.lookup n = some d → P n d) (hc : P id c) (n d : PatternId)
    (hn : ((id, c) :: known).lookup n = some d) : P n d := by
  rw [List.lookup_cons] at hn
  split at hn
  case h_1 heq => rwa [beq_iff_eq.1 heq, ← Option.some.inj hn]
  case h_2 => exact h n d hn

theorem Sound.learn (h : Sound p₀ st) {c : PatternId} (hc : Stands p₀ st.1 id c) :
    Sound p₀ (st.1, (id, c) :: st.2) where
  extends_start := h.extends_start
  wellFormed := h.wellFormed
  known := forall_lookup_cons h.known hc

def Reached (p₀ : Pool) (ids : List PatternId) (n : PatternId) : Prop :=
  ∃ s ∈ ids, ReflTransGen p₀.Embeds s n

/-- The answer `c` is a canonical pattern for `id`. Of the older patterns only those under `id`
became canonical, and `id` itself if it is the answer. -/
structure Found (p₀ : Pool) (id : PatternId) (st : Progress) (c : PatternId) (st' : Progress) :
    Prop where
  refines : Refines (fun n => TransGen p₀.Embeds id n ∨ n = id ∧ n = c) st.1 st'.1
  sound : Sound p₀ st'
  stands : Stands p₀ st'.1 id c

theorem InTurn.mono {Q R : PatternId → Progress → PatternId → Progress → Prop}
    {ids cs : List PatternId} {st' : Progress} (h : InTurn Q ids st cs st')
    (hQR : ∀ id st c st', Q id st c st' → R id st c st') : InTurn R ids st cs st' := by
  induction h with
  | nil => exact .nil _
  | cons first _ ih => exact .cons (hQR _ _ _ _ first) ih

theorem InTurn.found {ids cs : List PatternId} {st' : Progress}
    (h : InTurn (Found p₀) ids st cs st') (hst : Sound p₀ st) :
    Refines (Reached p₀ ids) st.1 st'.1 ∧ List.Forall₂ (Stands p₀ st'.1) ids cs := by
  induction h with
  | nil st => exact ⟨Refines.refl hst.wellFormed, .nil⟩
  | @cons s c ids cs st st' st'' first _ ih =>
    obtain ⟨hrest, hall⟩ := ih first.sound
    -- what the first one found still stands when the others are done
    refine ⟨(first.refines.mono ?_).trans (hrest.mono ?_), .cons (first.stands.refines hrest) hall⟩
    · rintro n (hn | ⟨rfl, -⟩)
      · exact ⟨s, List.mem_cons_self, hn.to_reflTransGen⟩
      · exact ⟨n, List.mem_cons_self, ReflTransGen.refl⟩
    · rintro n ⟨t, ht, hn⟩
      exact ⟨t, List.mem_cons_of_mem s ht, hn⟩

/-- A pattern gets a canonical one of its meaning if its sub-patterns have theirs. -/
theorem WellFormed.stands_represent (h₀ : p₀.WellFormed) (hk : p₀.kind? id = some k)
    (hst : Sound p₀ st) {k' : Kind PatternId} (hrel : k.Rel (Stands p₀ st.1) k') :
    let c := (st.1.represent k' id).1
    Refines (fun n => n = id ∧ n = c) st.1 (st.1.represent k' id).2 ∧
      Stands p₀ (st.1.represent k' id).2 id c := by
  have hvalid : k'.Valid := hrel.valid_iff.1 (h₀.valid id k hk)
  have hcanonical : ∀ c ∈ k'.subs, st.1.isCanonical c = true := by
    intro c hc
    obtain ⟨s, -, hstands⟩ := hrel.exists_of_mem hc
    exact hstands.canonical
  -- the sub-patterns were replaced by others of the same meaning
  have hmeaning : p₀.Aligned → (k'.map st.1.meaning).meaning = p₀.meaning id := by
    intro haligned
    rw [h₀.meaning_eq hk, hrel.map_eq fun s c hstands => (hstands.meaning haligned).symm]
  obtain ⟨hrefines, hc, hcmeaning⟩ := hst.wellFormed.represent hvalid hcanonical id
  refine ⟨hrefines, hc, fun haligned => ?_, fun d hd => ?_⟩
  · exact (hcmeaning (hst.extends_start.aligned haligned)).trans (hmeaning haligned)
  obtain ⟨s, hs⟩ := domain?_eq_some.1 hd
  rw [hk, Option.some.injEq] at hs
  subst hs
  cases hrel with
  | ctx _ hs => exact hst.wellFormed.domain?_represent hs.canonical id

/-- Induction along a canonicalization in a well-formed pool, where each pattern that is worked on
gets a canonical pattern of its meaning. -/
theorem WellFormed.canonicalOf_induct (h₀ : p₀.WellFormed)
    {Q : PatternId → Progress → PatternId → Progress → Prop}
    (known : ∀ id st c, Sound p₀ st → p₀.contains id = true → st.2.lookup id = some c →
      Q id st c st)
    (canonical : ∀ id st, Sound p₀ st → p₀.contains id = true → st.2.lookup id = none →
      st.1.isCanonical id = true → Q id st id (st.1, (id, id) :: st.2))
    (work : ∀ id k k' st st', Sound p₀ st → st.2.lookup id = none → p₀.kind? id = some k →
      st.1.isCanonical id = false → Sound p₀ st' → Refines (Reached p₀ k.subs) st.1 st'.1 →
      k.Rel (Stands p₀ st'.1) k' →
        InTurn (fun id st c st' => Found p₀ id st c st' ∧ Q id st c st') k.subs st k'.subs st' →
          let c := (st'.1.represent k' id).1
          let st'' := ((st'.1.represent k' id).2, (id, c) :: st'.2)
          Found p₀ id st c st'' → Q id st c st'')
    (hid : p₀.contains id = true) (hst : Sound p₀ st) :
    let c := ((Pool.canonicalOf p₀.nodes.size id).run st).1
    let st' := ((Pool.canonicalOf p₀.nodes.size id).run st).2
    Found p₀ id st c st' ∧ Q id st c st' := by
  refine h₀.toLinked.canonicalOf_induct (I := Sound p₀)
    (Q := fun id st c st' => Found p₀ id st c st' ∧ Q id st c st')
    (fun st hst => hst.extends_start) (fun _ _ _ _ h => h.1.sound) ?_ ?_ ?_ hid hst
  · intro id st c hst hid hc
    exact ⟨⟨Refines.refl hst.wellFormed, hst, hst.known id c hc⟩, known id st c hst hid hc⟩
  · intro id st hst hid hnew hcanonical
    have hstands : Stands p₀ st.1 id id :=
      ⟨hcanonical, fun _ => hst.extends_start.meaning hid, fun d => hst.extends_start.domain?⟩
    exact ⟨⟨Refines.refl hst.wellFormed, hst.learn hstands, hstands⟩,
      canonical id st hst hid hnew hcanonical⟩
  · intro id k k' st st' hst hnew hk hcanonical hturn hrel
    have hsound : Sound p₀ st' := hturn.invariant (fun _ _ _ _ _ h _ => h.1.sound) hst
    obtain ⟨hsubs, hall⟩ := (hturn.mono fun _ _ _ _ h => h.1).found hst
    obtain ⟨hrefines, hstands⟩ := h₀.stands_represent hk hsound (hrel.of_forall₂ hall)
    have hfound : Found p₀ id st (st'.1.represent k' id).1
        ((st'.1.represent k' id).2, (id, (st'.1.represent k' id).1) :: st'.2) := by
      refine ⟨(hsubs.mono ?_).trans (hrefines.mono fun n hn => Or.inr hn),
        (hsound.refines hrefines).learn hstands, hstands⟩
      rintro n ⟨s, hs, hn⟩
      exact Or.inl (TransGen.head' ⟨k, hk, hs⟩ hn)
    exact ⟨hfound,
      work id k k' st st' hst hnew hk hcanonical hsound hsubs (hrel.of_forall₂ hall) hturn hfound⟩

theorem WellFormed.sound_start (h : p.WellFormed) : Sound p (p, []) :=
  ⟨Extends.refl p, h, fun _ _ hn => nomatch hn⟩

/-- Every pattern under a live one gets a canonical pattern of its meaning. -/
theorem WellFormed.found_canonicalOf (h : p.WellFormed) (hid : p.contains id = true) :
    Found p id (p, []) ((Pool.canonicalOf p.nodes.size id).run (p, [])).1
      ((Pool.canonicalOf p.nodes.size id).run (p, [])).2 :=
  (h.canonicalOf_induct (Q := fun _ _ _ _ => True) (fun _ _ _ _ _ _ => trivial)
    (fun _ _ _ _ _ _ => trivial) (fun _ _ _ _ _ _ _ _ _ _ _ _ _ _ => trivial) hid h.sound_start).1

/-- The canonical pattern of a live one, as its canonicalization in a well-formed pool finds or
makes it. -/
theorem WellFormed.canonicalOf (h : p.WellFormed) (hid : p.contains id = true) :
    let c := ((Pool.canonicalOf p.nodes.size id).run (p, [])).1
    let q := ((Pool.canonicalOf p.nodes.size id).run (p, [])).2.1
    Refines (fun n => TransGen p.Embeds id n ∨ n = id ∧ n = c) p q ∧ q.isCanonical c = true ∧
      (p.Aligned → q.meaning c = p.meaning id) := by
  have hfound := h.found_canonicalOf hid
  exact ⟨hfound.refines, hfound.stands.canonical, hfound.stands.meaning⟩

theorem WellFormed.domain?_canonicalOf (h : p.WellFormed) {d : Domain}
    (hd : p.domain? id = some d) :
    ((Pool.canonicalOf p.nodes.size id).run (p, [])).2.1.domain?
      ((Pool.canonicalOf p.nodes.size id).run (p, [])).1 = some d := by
  obtain ⟨s, hs⟩ := domain?_eq_some.1 hd
  exact (h.found_canonicalOf (kind?_isSome_iff.1 ⟨_, hs⟩)).stands.domain? d hd

theorem run_canonicalOf_canonical (hid : p.isCanonical id = true) :
    (Pool.canonicalOf p.nodes.size id).run (p, []) = (id, p, [(id, id)]) := by
  obtain ⟨node, hnode, hcanonical⟩ := (Option.any_eq_true ..).1 hid
  have hsize : p.nodes.size ≠ 0 := by
    have hlt := index_lt_of_contains (contains_of_isCanonical hid)
    omega
  obtain ⟨fuel, hfuel⟩ := Nat.exists_eq_succ_of_ne_zero hsize
  rw [hfuel, Nat.succ_eq_add_one, run_canonicalOf]
  simp only [List.lookup_nil, hnode, hcanonical, if_true]

/-- A pattern that is not its own canonical one does not become canonical. -/
theorem WellFormed.not_isCanonical_of_ne (h : p.WellFormed) (hid : p.contains id = true)
    (hne : ((Pool.canonicalOf p.nodes.size id).run (p, [])).1 ≠ id) :
    ((Pool.canonicalOf p.nodes.size id).run (p, [])).2.1.isCanonical id = false := by
  obtain ⟨hrefines, -, -⟩ := h.canonicalOf hid
  by_contra hcanonical
  rw [Bool.not_eq_false] at hcanonical
  rcases hrefines.newly id hid hcanonical with hold | hunder | ⟨-, hanswer⟩
  · exact hne (by rw [run_canonicalOf_canonical hold])
  · exact h.acyclic id hunder
  · exact hne hanswer.symm

end Work

end Sigil.Pool
