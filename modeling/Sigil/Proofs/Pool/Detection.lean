import Sigil.Proofs.ByteMatchers
import Sigil.Proofs.Pool.Matching

namespace Sigil

open Offset (Aligned Shown)

def Kind.WholeBytes {α : Type} : Kind α → Prop
  | .lit l => l.bits.WholeBytes
  | .any bits => Aligned bits
  | _ => True

instance {α : Type} : (k : Kind α) → Decidable k.WholeBytes
  | .lit l => inferInstanceAs (Decidable l.bits.WholeBytes)
  | .any bits => inferInstanceAs (Decidable (Aligned bits))
  | .range .. | .anchor _ | .alt _ | .seq _ | .rep .. | .ctx .. => .isTrue trivial

def Matcher.WholeBytes (m : Matcher) : Prop :=
  ∀ data pos hit, m data pos .anchored = some hit → Aligned hit.length

theorem Kind.Rel.wholeBytes {α β : Type} {R : α → β → Prop} {k : Kind α} {k' : Kind β}
    (h : k.Rel R k') (hk : k.WholeBytes) : k'.WholeBytes := by
  cases h <;> exact hk

/-! ## Steps that can stand for each other -/

theorem Hit.Within.stop_cover {hit next : Hit} {pos limit : Nat} (h : hit.Within pos limit)
    (hnext : next.Within hit.stop limit) (hinf : limit < inf) :
    (hit.cover next).stop = next.stop := by
  rw [(h.cover hnext hinf).2, hnext.stop_eq hinf]

/-- At the offsets up to the limit for which the whole bytes show enough, both steps answer the
same, and a hit leads to such an offset again. -/
def Replaces (limit : Nat) (step step' : Nat → Option Hit) : Prop :=
  ∀ pos ≤ limit, Shown limit pos → step' pos = step pos ∧
    ∀ hit, step pos = some hit → hit.Within pos limit ∧ Shown limit hit.stop

abbrev Tree.StandsIn (data : Buffer) (limit : Nat) (t u : Tree Note) : Prop :=
  Replaces limit (t.matchAt data limit) (u.matchAt data limit)

section Layers

variable {data : Buffer} {limit : Nat} {step step' : Nat → Option Hit}

theorem repeatGreedy_congr (hinf : limit < inf) (h : Replaces limit step step') (r : Repeat)
    (fuel : Nat) {pos : Nat} {hit : Hit} (count : Nat) (hhit : hit.Within pos limit)
    (hshown : Shown limit hit.stop) :
    repeatGreedy step' r fuel hit count = repeatGreedy step r fuel hit count ∧
      Shown limit (repeatGreedy step r fuel hit count).1.stop := by
  induction fuel generalizing hit count with
  | zero => exact ⟨rfl, hshown⟩
  | succ fuel ih =>
    obtain ⟨heq, hgo⟩ := h hit.stop (hhit.stop_le hinf) hshown
    unfold repeatGreedy
    rw [heq]
    split
    case isTrue => exact ⟨rfl, hshown⟩
    case isFalse =>
      cases hnext : step hit.stop with
      | none => exact ⟨rfl, hshown⟩
      | some next =>
        obtain ⟨hwithin, hnextShown⟩ := hgo next hnext
        -- what is covered so far ends where its last part does
        rw [← hhit.stop_cover hwithin hinf] at hnextShown
        dsimp only
        split
        case isTrue => exact ⟨rfl, hnextShown⟩
        case isFalse => exact ih (count + 1) (hhit.cover hwithin hinf).1 hnextShown

theorem matchRepeat_congr (hinf : limit < inf) (h : Replaces limit step step') (r : Repeat)
    {pos : Nat} (hpos : pos ≤ limit) (hshown : Shown limit pos) :
    matchRepeat step' r pos limit = matchRepeat step r pos limit ∧
      ∀ hit, matchRepeat step r pos limit = some hit → Shown limit hit.stop := by
  have hstart := Hit.within_emptyAt hpos
  obtain ⟨heq, hstop⟩ := repeatGreedy_congr hinf h r (limit - pos + 1) 0 hstart
    (by rwa [hstart.stop_eq hinf])
  unfold matchRepeat
  rw [heq]
  refine ⟨rfl, fun hit hhit => ?_⟩
  dsimp only at hhit
  split at hhit
  case isTrue => exact Option.some.inj hhit ▸ hstop
  case isFalse => cases hhit

namespace Tree

variable {ts us : List (Tree Note)} {pos : Nat}

theorem matchFirst_congr
    (h : List.Forall₂ (StandsIn data limit) ts us)
    (hpos : pos ≤ limit) (hshown : Shown limit pos) :
    matchFirst data limit us pos = matchFirst data limit ts pos ∧
      ∀ hit, matchFirst data limit ts pos = some hit → Shown limit hit.stop := by
  induction h with
  | nil => exact ⟨rfl, fun hit hhit => by cases hhit⟩
  | cons ht _ ih =>
    obtain ⟨heq, hgo⟩ := ht pos hpos hshown
    unfold matchFirst
    rw [heq]
    cases hfirst : matchAt data limit _ pos with
    | none => exact ih
    | some first => exact ⟨rfl, fun hit hhit => Option.some.inj hhit ▸ (hgo first hfirst).2⟩

theorem matchInOrder_congr (hinf : limit < inf)
    (h : List.Forall₂ (StandsIn data limit) ts us) {hit : Hit}
    (hhit : hit.Within pos limit) (hshown : Shown limit hit.stop) :
    matchInOrder data limit us hit = matchInOrder data limit ts hit ∧
      ∀ last, matchInOrder data limit ts hit = some last → Shown limit last.stop := by
  induction h generalizing hit with
  | nil => exact ⟨rfl, fun last hlast => Option.some.inj hlast ▸ hshown⟩
  | cons ht _ ih =>
    obtain ⟨heq, hgo⟩ := ht hit.stop (hhit.stop_le hinf) hshown
    unfold matchInOrder
    rw [heq]
    cases hnext : matchAt data limit _ hit.stop with
    | none => exact ⟨rfl, fun last hlast => by cases hlast⟩
    | some next =>
      obtain ⟨hwithin, hnextShown⟩ := hgo next hnext
      rw [← hhit.stop_cover hwithin hinf] at hnextShown
      exact ih (hhit.cover hwithin hinf).1 hnextShown

/-- Layers over sub-patterns that can stand for each other match the same, and go on to an offset
for which the whole bytes show enough. -/
theorem matchKind_congr {k k' : Kind (Tree Note)} (hinf : limit < inf)
    (h : k.Rel (StandsIn data limit) k') (hwhole : Aligned limit ∨ k.WholeBytes) (lead : Fin 8)
    (hpos : pos ≤ limit) (hshown : Shown limit pos) :
    matchKind data limit lead k' pos = matchKind data limit lead k pos ∧
      ∀ hit, matchKind data limit lead k pos = some hit → hit.Within pos limit →
        Shown limit hit.stop := by
  have hleaf : ∀ {length : Nat}, Aligned limit ∨ Aligned length →
      ∀ hit, some (Hit.mk pos length) = some hit →
        hit.Within pos limit → Shown limit hit.stop := by
    rintro length hlength hit heq hwithin
    rw [hwithin.stop_eq hinf, ← Option.some.inj heq]
    exact hshown.add hlength
  have hcheck : ∀ {c : Prop} [Decidable c] {length : Nat}, Aligned limit ∨ Aligned length → ∀ hit,
      (if c then some (Hit.mk pos length) else none) = some hit → hit.Within pos limit →
        Shown limit hit.stop := by
    intro c _ length hlength hit hhit
    split at hhit
    case isTrue => exact hleaf hlength hit hhit
    case isFalse => cases hhit
  cases h with
  | lit l => exact ⟨rfl, hcheck hwhole⟩
  | any bits => exact ⟨rfl, hleaf hwhole⟩
  | range lo hi => exact ⟨rfl, hcheck (Or.inr (Nat.mod_self 8))⟩
  | anchor a => exact ⟨rfl, hcheck (Or.inr (Nat.zero_mod 8))⟩
  | alt h =>
    obtain ⟨heq, hgo⟩ := matchFirst_congr h hpos hshown
    exact ⟨heq, fun hit hhit _ => hgo hit hhit⟩
  | seq h =>
    have hstart := Hit.within_emptyAt hpos
    obtain ⟨heq, hgo⟩ := matchInOrder_congr hinf h hstart (by rwa [hstart.stop_eq hinf])
    exact ⟨heq, fun hit hhit _ => hgo hit hhit⟩
  | rep h r =>
    obtain ⟨heq, hgo⟩ := matchRepeat_congr hinf h r hpos hshown
    exact ⟨heq, fun hit hhit _ => hgo hit hhit⟩
  | ctx d h =>
    obtain ⟨heq, hgo⟩ := h pos hpos hshown
    exact ⟨heq, fun hit hhit _ => (hgo hit hhit).2⟩

/-- A search comes to offsets of its grid only, and for these the whole bytes show enough if they do
for one. -/
theorem searchFrom_congr {t u : Tree Note} (hskips : u.skips = t.skips)
    (h : StandsIn data limit t u) (fuel : Nat) (hpos : pos ≤ limit) (hshown : Shown limit pos) :
    u.searchFrom data limit fuel pos = t.searchFrom data limit fuel pos := by
  induction fuel generalizing pos with
  | zero => rfl
  | succ fuel ih =>
    have hsame : u.nextOffset data (Offset.toByte limit) pos =
        t.nextOffset data (Offset.toByte limit) pos := by
      rw [nextOffset, hskips, nextOffset]
    obtain ⟨passed, htried, hle, -⟩ := t.nextOffset_spec data hpos
    have hgrid : Shown limit (pos + 8 * passed) := hshown.add (Or.inr (Nat.mul_mod_right 8 passed))
    unfold searchFrom
    rw [hsame, htried]
    dsimp only
    rw [(h _ hle hgrid).1]
    cases matchAt data limit t (pos + 8 * passed) with
    | some hit => rfl
    | none =>
      dsimp only
      split
      case isTrue => rfl
      case isFalse hend => exact ih (Nat.not_lt.1 hend) (hgrid.add (Or.inr (Nat.mod_self 8)))

/-- Trees with the same note at the root match a region the same if they match the same at each
offset. -/
theorem matchIn_congr {t u : Tree Note} (hnote : u.note = t.note) {region : BitRange}
    (h : StandsIn data (min region.high data.bitSize) t u)
    (hshown : Shown (min region.high data.bitSize) region.low) (mode : MatchMode) :
    u.matchIn data region mode = t.matchIn data region mode := by
  unfold matchIn
  rw [hnote]
  split
  case isTrue => rfl
  case isFalse hregion =>
    rw [not_or, not_not, Nat.not_lt] at hregion
    obtain ⟨hdefined, hlow⟩ := hregion
    have hpos : region.low ≤ min region.high data.bitSize := Nat.le_min.2 ⟨hdefined, hlow⟩
    rw [BitRange.clip_eq hdefined hlow]
    have hat := (h region.low hpos hshown).1
    have hskips : u.skips = t.skips := by rw [skips, hnote, skips]
    cases t.note.matcher with
    | some matcher => rfl
    | none =>
      cases mode with
      | anchored => exact hat
      | full => exact congrArg (Option.filter _) hat
      | search => exact searchFrom_congr hskips h _ hpos hshown

/-- Nodes with the same note, over sub-patterns that can stand for each other. -/
theorem standsIn_node {note : Note} {k k' : Kind (Tree Note)} (hfaithful : (node note k).Faithful)
    (hlimit : limit ≤ data.bitSize) (hinf : limit < inf)
    (hsubs : k.Rel (StandsIn data limit) k')
    (hwhole : Aligned limit ∨ k.WholeBytes ∧ ∀ m, note.matcher = some m → m.WholeBytes) :
    StandsIn data limit (node note k) (node note k') := by
  intro pos hpos hshown
  have hwithin := (safe_matchAt hfaithful hlimit hinf pos hpos).within
  unfold matchAt at hwithin ⊢
  cases hnote : note.matcher with
  | some m =>
    rw [hnote] at hwithin
    refine ⟨rfl, fun hit hhit => ⟨hwithin hit hhit, ?_⟩⟩
    rw [(hwithin hit hhit).stop_eq hinf]
    exact hshown.add (hwhole.imp_right fun h =>
      h.2 m hnote _ _ _ (Option.filter_eq_some_iff.1 hhit).1)
  | none =>
    rw [hnote] at hwithin
    dsimp only at hwithin ⊢
    split
    case isFalse => exact ⟨rfl, fun hit hhit => by cases hhit⟩
    case isTrue hfits =>
      rw [if_pos hfits] at hwithin
      obtain ⟨heq, hgo⟩ := matchKind_congr hinf hsubs (hwhole.imp_right And.left) note.lead
        hpos hshown
      exact ⟨heq, fun hit hhit => ⟨hwithin hit hhit, hgo hit hhit (hwithin hit hhit)⟩⟩

theorem bare_range {note : Note} {lo hi : UInt8} (hbare : note.matcher = none) :
    (node note (.range lo hi)).Bare :=
  Each.node hbare fun _ ht => absurd ht List.not_mem_nil

theorem flush_range {note : Note} {lo hi : UInt8} : (node note (.range lo hi)).Flush :=
  Each.node trivial fun _ ht => absurd ht List.not_mem_nil

/-- A range that gets its matcher. -/
theorem standsIn_range {note : Note} {lo hi : UInt8} {m : Matcher}
    (hvalid : (node note (.range lo hi)).Valid) (hfaithful : (node note (.range lo hi)).Faithful)
    (hbare : note.matcher = none) (hm : Matcher.ofRange? lo hi = some m)
    (hlimit : limit ≤ data.bitSize) (hinf : limit < inf) :
    StandsIn data limit (node note (.range lo hi))
      (node { note with matcher := some m } (.range lo hi)) := by
  intro pos hpos hshown
  have hplain : matchAt data limit (node note (.range lo hi)) pos =
      (node note (.range lo hi)).plainHit data limit pos :=
    realizes_matchAt hvalid hfaithful (bare_range hbare) flush_range hlimit hinf.le
      (Or.inl hinf) pos hpos
  refine ⟨(matchAt_detected hm rfl hlimit hshown).trans hplain.symm, fun hit hhit => ?_⟩
  obtain ⟨rfl, hfits⟩ := (readsByte_range note lo hi).eq_of_plainHit hlimit (hplain.symm.trans hhit)
  have hwithin : (Hit.mk pos 8).Within pos limit := ⟨rfl, hfits⟩
  refine ⟨hwithin, ?_⟩
  rw [hwithin.stop_eq hinf]
  exact hshown.add (Or.inr (Nat.mod_self 8))

end Tree

end Layers

/-! ## What detection changes -/

/-- The node stays as it is, or is a range of bytes without a matcher that gets the one that is
built in for it. -/
inductive Node.Equips (node : Node) : Node → Prop where
  | same : Equips node node
  | range {lo hi : UInt8} {m : Matcher} (hkind : node.kind = .range lo hi)
    (hbare : node.matcher = none)
      (hm : Matcher.ofRange? lo hi = some m) : Equips node { node with matcher := some m }

namespace Pool

open Relation (ReflTransGen)

variable {p q : Pool} {id n : PatternId}

theorem detectedMatcher?_eq_some {m : Matcher} (h : p.detectedMatcher? id = some m) :
    ∃ node lo hi, p.get? id = some node ∧ node.kind = .range lo hi ∧ node.matcher = none ∧
      Matcher.ofRange? lo hi = some m := by
  unfold detectedMatcher? at h
  obtain ⟨node, hnode, h⟩ := Option.bind_eq_some_iff.1 h
  split at h
  case h_1 lo hi hkind hbare => exact ⟨node, lo, hi, hnode, hkind, hbare, h⟩
  case h_2 => cases h

def Equips (p q : Pool) : Prop := ∀ n, Option.Rel Node.Equips (p.get? n) (q.get? n)

theorem Equips.modify (h : p.Equips q) (hid : (p.detectedMatcher? id).isSome = true) :
    p.Equips (q.modify id ({ · with matcher := p.detectedMatcher? id })) := by
  obtain ⟨m, hm⟩ := Option.isSome_iff_exists.1 hid
  obtain ⟨node, lo, hi, hnode, hkind, hbare, hrange⟩ := detectedMatcher?_eq_some hm
  intro n
  have hn := h n
  rw [get?_modify]
  split
  case isFalse => exact hn
  case isTrue heq =>
    subst heq
    rw [hnode] at hn ⊢
    generalize q.get? n = o at hn
    cases hn with
    | some hequips =>
      rw [hm]
      have hrest := Node.Equips.range hkind hbare hrange
      cases hequips with
      | same => exact .some hrest
      | range => exact .some hrest

theorem equips_detectMatchers (p : Pool) (id : PatternId) :
    p.Equips ((Edit.detectMatchers id).after p) := by
  have hfold : ∀ (ids : List PatternId) (q : Pool),
      (∀ n ∈ ids, (p.detectedMatcher? n).isSome = true) → p.Equips q →
        p.Equips (ids.foldl
          (fun q sub => q.modify sub ({ · with matcher := p.detectedMatcher? sub })) q) := by
    intro ids
    induction ids with
    | nil => exact fun q _ hq => hq
    | cons n ids ih =>
      intro q hids hq
      exact ih _ (fun m hm => hids m (List.mem_cons_of_mem n hm))
        (hq.modify (hids n List.mem_cons_self))
  refine hfold _ p (fun n hn => (List.mem_filter.1 hn).2) fun n => ?_
  cases p.get? n with
  | none => exact .none
  | some node => exact .some .same

/-! ## Matching after detection -/

def WholeBytes (p : Pool) (id : PatternId) : Prop := ∀ n, ReflTransGen p.Embeds id n →
  (∀ k, p.kind? n = some k → k.WholeBytes) ∧ ∀ m, p.matcher? n = some m → m.WholeBytes

theorem WholeBytes.sub (h : p.WholeBytes id) (hn : p.Embeds id n) : p.WholeBytes n := fun m hm =>
  h m (ReflTransGen.head hn hm)

theorem WholeBytes.layer (h : p.WholeBytes id) (hp : p.WellFormed) {note : Note}
    {k : Kind (Tree Note)} (ht : p.tree? id = some (.node note k)) :
    k.WholeBytes ∧ ∀ m, note.matcher = some m → m.WholeBytes := by
  obtain ⟨node, hnode, -⟩ := exists_node_of_tree? ht
  obtain ⟨_, heq, hrel⟩ := hp.exists_layer hnode ht
  cases heq
  obtain ⟨hkind, hmatcher⟩ := h id ReflTransGen.refl
  refine ⟨hrel.wholeBytes (hkind _ (kind?_of_get? hnode)), fun m hm => hmatcher m ?_⟩
  rw [matcher?, hnode, Option.bind_some]
  exact hm

/-- The tree of a pattern changes at the root at most if it is a range that gets its matcher. -/
inductive Refits (p q : Pool) (id : PatternId) : Tree Note → Tree Note → Prop where
  | same {note : Note} {k k' : Kind (Tree Note)}
      (hrel : k.Rel (fun t u => ∃ s, p.Embeds id s ∧ p.tree? s = some t ∧ q.tree? s = some u) k') :
      Refits p q id (.node note k) (.node note k')
  | range {note : Note} {lo hi : UInt8} {m : Matcher} (hbare : note.matcher = none)
      (hm : Matcher.ofRange? lo hi = some m) :
      Refits p q id (.node note (.range lo hi)) (.node { note with matcher := some m }
        (.range lo hi))

theorem Equips.refits (h : p.Equips q) (hp : p.WellFormed) (hq : q.WellFormed) {t u : Tree Note}
    (ht : p.tree? id = some t) (hu : q.tree? id = some u) : Refits p q id t u := by
  obtain ⟨node, hnode, -⟩ := exists_node_of_tree? ht
  obtain ⟨node', hnode', -⟩ := exists_node_of_tree? hu
  have hequips := h id
  rw [hnode, hnode'] at hequips
  obtain ⟨k, rfl, hrel⟩ := hp.exists_layer hnode ht
  obtain ⟨k', rfl, hrel'⟩ := hq.exists_layer hnode' hu
  cases hequips with
  | some hequips =>
    cases hequips with
    | same => exact .same (hrel.span hrel' fun s t u hs hs' => ⟨s, hs.1, hs.2, hs'.2⟩)
    | range hkind hbare hm =>
      rw [hkind] at hrel
      change node.kind.Rel _ k' at hrel'
      rw [hkind] at hrel'
      cases hrel
      cases hrel'
      exact .range hbare hm

/-- Where ranges of bytes have been given their matchers, a pattern still matches the same at each
offset for which the whole bytes show enough. -/
theorem Equips.standsIn (h : p.Equips q) (hp : p.WellFormed) (hq : q.WellFormed) {data : Buffer}
    {limit : Nat} (hlimit : limit ≤ data.bitSize) (hinf : limit < inf) {t u : Tree Note}
    (ht : p.tree? id = some t) (hu : q.tree? id = some u)
    (hwhole : Offset.Aligned limit ∨ p.WholeBytes id) :
    Tree.StandsIn data limit t u := by
  obtain ⟨node, hnode, -⟩ := exists_node_of_tree? ht
  refine hp.induction (P := fun id => ∀ t u, p.tree? id = some t → q.tree? id = some u →
    Offset.Aligned limit ∨ p.WholeBytes id → Tree.StandsIn data limit t u) ?_
    (contains_of_get? hnode) t u ht hu hwhole
  intro id ih t u ht hu hwhole
  have hunfolds := hp.unfolds ht
  cases h.refits hp hq ht hu with
  | range hbare hm =>
    exact Tree.standsIn_range hunfolds.valid hunfolds.faithful hbare hm hlimit hinf
  | same hrel =>
    refine Tree.standsIn_node hunfolds.faithful hlimit hinf
      (hrel.mono fun a b ⟨s, hs, ha, hb⟩ => ih s hs a b ha hb (hwhole.imp_right fun h =>
        h.sub hs)) ?_
    exact hwhole.imp_right fun h => h.layer hp ht

theorem Equips.contains (h : p.Equips q) : q.contains = p.contains := by
  funext n
  have hn := h n
  rw [Pool.contains, Pool.contains]
  generalize p.get? n = o at hn
  generalize q.get? n = o' at hn
  cases hn with
  | none => rfl
  | some => rfl

theorem Equips.matchIn (h : p.Equips q) (hp : p.WellFormed) (hq : q.WellFormed) {data : Buffer}
    (hinf : data.bitSize < inf) {region : BitRange}
    (hwhole : Offset.Aligned (min region.high data.bitSize) ∨
      Shown (min region.high data.bitSize) region.low ∧ p.WholeBytes id) (mode : MatchMode) :
    q.matchIn id data region mode = p.matchIn id data region mode := by
  have hshown : Shown (min region.high data.bitSize) region.low :=
    hwhole.elim (fun h => Offset.shown_of_aligned h _) And.left
  have hlimit : min region.high data.bitSize ≤ data.bitSize := Nat.min_le_right ..
  rw [Pool.matchIn, Pool.matchIn]
  cases hid : p.contains id with
  | false =>
    rw [tree?_eq_none hid, tree?_eq_none (by rwa [h.contains])]
  | true =>
    obtain ⟨t, ht, hunfolds⟩ := hp.exists_tree hid
    obtain ⟨u, hu, -⟩ := hq.exists_tree (by rwa [h.contains])
    rw [ht, hu]
    show u.matchIn data region mode = t.matchIn data region mode
    cases h.refits hp hq ht hu with
    | same =>
      have hstands :=
        h.standsIn hp hq hlimit (hlimit.trans_lt hinf) ht hu (hwhole.imp_right And.right)
      refine Tree.matchIn_congr ?_ hstands hshown mode
      rfl
    | range hbare hm =>
      rw [Tree.matchIn_detected hm rfl hinf hshown,
        Tree.matchIn_eq hunfolds.valid hunfolds.faithful (Tree.bare_range hbare)
          Tree.flush_range hinf]
      rfl

/-- What holds of each node holds of all that is at or under a pattern. -/
theorem wholeBytes_of_all
    (h : p.nodes.toList.all
      (fun o => o.all fun node => decide node.kind.WholeBytes && node.matcher.isNone) = true)
    (id : PatternId) : p.WholeBytes id := by
  intro n _
  have hnode : ∀ {node : Node}, p.get? n = some node → node.kind.WholeBytes ∧
      node.matcher = none := by
    intro node hnode
    have hall := of_all_nodes h hnode
    rwa [Bool.and_eq_true, decide_eq_true_iff, Option.isNone_iff_eq_none] at hall
  constructor
  · intro k hk
    obtain ⟨node, hget, rfl⟩ := Option.map_eq_some_iff.1 hk
    exact (hnode hget).1
  · intro m hm
    obtain ⟨node, hget, hmatcher⟩ := Option.bind_eq_some_iff.1 hm
    rw [(hnode hget).2] at hmatcher
    cases hmatcher

/-- The detection of matchers always succeeds. In a pool with a history it changes no match of any
pattern in a region that ends at a byte boundary, be it cut there by the end of the buffer or not.
Nor does it in another region, if the pattern goes on by whole bytes, where the region begins at a
byte boundary or further past one than it ends. -/
theorem run_detectMatchers_same_matches (cs : List Command) (id n : PatternId) (data : Buffer)
    (hinf : data.bitSize < inf) (region : BitRange)
    (hwhole : Offset.Aligned (min region.high data.bitSize) ∨
      Shown (min region.high data.bitSize) region.low ∧ (run cs).WholeBytes n) :
    ∃ count q, Edit.detectMatchers id (run cs) = .ok count q ∧
      ∀ mode, q.matchIn n data region mode = (run cs).matchIn n data region mode := by
  have hp : (run cs).WellFormed := wellFormed_run cs
  have hequips := equips_detectMatchers (run cs) id
  have hq := (Edit.keeping_detectMatchers id _ hp).wellFormed
  exact ⟨_, _, rfl, fun mode => hequips.matchIn hp hq hinf hwhole mode⟩

/-- A letter and a digit in a region that ends within the byte after them. -/
theorem run_detectMatchers_letter_digit :
    let p := run [.lit [97], .range 0x30 0x39, .seq [⟨0⟩, ⟨1⟩]]
    ∃ count q, Edit.detectMatchers ⟨2⟩ p = .ok count q ∧
      q.matchIn ⟨2⟩ #[97, 53, 98] ⟨0, 20⟩ .search = some ⟨0, 16⟩ := by
  intro p
  obtain ⟨count, q, hrun, hmatch⟩ := run_detectMatchers_same_matches [.lit [97], .range 0x30 0x39,
    .seq [⟨0⟩, ⟨1⟩]] ⟨2⟩
    ⟨2⟩ #[97, 53, 98] (by decide) ⟨0, 20⟩ (Or.inr ⟨by decide, wholeBytes_of_all (by decide) ⟨2⟩⟩)
  refine ⟨count, q, hrun, ?_⟩
  rw [hmatch]
  decide

/-- A digit across two bytes of which the region holds the last in part: the range sees it, its
matcher does not. -/
theorem detectMatchers_last_part :
    let p := run [.range 0x30 0x39]
    let q := (Edit.detectMatchers ⟨0⟩).after p
    (∀ mode, p.matchIn ⟨0⟩ #[0x03, 0x10] ⟨4, 12⟩ mode = some ⟨4, 8⟩) ∧
      ∀ mode, q.matchIn ⟨0⟩ #[0x03, 0x10] ⟨4, 12⟩ mode = none := by
  constructor
  · intro mode
    cases mode <;> decide
  · intro mode
    cases mode <;> decide

end Pool

end Sigil
