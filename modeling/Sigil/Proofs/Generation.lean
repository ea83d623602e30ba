import Sigil.Proofs.Counting
import Sigil.Proofs.Matching
import Sigil.Proofs.Random
import Sigil.Tree.Sample

namespace Sigil

open BitRange (Bounds)

/-- What generating may answer: nothing only if `E` holds, and bits only if `Q` holds of them. -/
def Outcome (E : Prop) (Q : Bits → Prop) : Option Bits → Prop
  | none => E
  | some w => Q w

theorem Outcome.mono {E F : Prop} {Q R : Bits → Prop} {o : Option Bits} (h : Outcome E Q o)
    (hE : E → F) (hQ : ∀ w, Q w → R w) : Outcome F R o := by
  cases o with
  | none => exact hE h
  | some w => exact hQ w h

theorem Produced.bits_push (out : Produced) (piece : Bits) :
    (out.push piece).bits = out.bits ++ piece := by
  simp [push, bits]

/-- In a sequence of instances, none of the sub-patterns is without instances, and each takes the
bits that it needs. -/
theorem BitRange.Bounds.of_mem_prod {α : Type} {sample : α → BitRange}
    {language : α → Language Bool} {subs : List α} (h : ∀ s ∈ subs, (sample s).Bounds (language s))
    {w : Bits} (hw : w ∈ (subs.map language).prod) :
    (∀ s ∈ subs, (sample s).Defined) ∧ (subs.map fun s => (sample s).low).sum ≤ w.length := by
  induction subs generalizing w with
  | nil => exact ⟨fun s hs => absurd hs List.not_mem_nil, Nat.zero_le _⟩
  | cons s subs ih =>
    rw [List.map_cons, List.prod_cons] at hw
    obtain ⟨x, hx, y, hy, rfl⟩ := Language.mem_mul.1 hw
    have hs := h s List.mem_cons_self
    obtain ⟨hdefined, hle⟩ := ih (fun t ht => h t (List.mem_cons_of_mem s ht)) hy
    have hlow := hs.low_le hx
    rw [List.forall_mem_cons, List.map_cons, List.sum_cons, List.length_append]
    exact ⟨⟨hs.defined hx, hdefined⟩, by omega⟩

theorem BitRange.Bounds.of_mem_pow {r : BitRange} {L : Language Bool} (h : r.Bounds L) {n : Nat}
    {w : Bits} (hw : w ∈ L ^ n) : (0 < n → r.Defined) ∧ n * r.low ≤ w.length := by
  have hprod : w ∈ ((List.replicate n r).map fun _ => L).prod := by
    rwa [List.map_replicate, List.prod_replicate]
  have hsub : ∀ s ∈ List.replicate n r, (id s).Bounds L :=
    fun s hs => List.eq_of_mem_replicate hs ▸ h
  obtain ⟨hdefined, hle⟩ := Bounds.of_mem_prod hsub hprod
  rw [List.map_replicate, List.sum_replicate, smul_eq_mul] at hle
  exact ⟨fun hn => hdefined r (List.mem_replicate.2 ⟨hn.ne', rfl⟩), hle⟩

/-! ## Leaves -/

section Leaves

variable {σ : Type} [RandomSource σ]

theorem length_randomBits (count : Nat) (reversed : Bits) :
    Always (randomBits count reversed : StateM σ Bits) fun w => w.length =
      count + reversed.length := by
  induction count generalizing reversed with
  | zero => exact .pure (by rw [List.length_reverse, Nat.zero_add])
  | succ count ih =>
    refine .bind (P := fun _ => True) (fun _ => trivial) fun b _ =>
      (ih (b :: reversed)).mono fun w hw => ?_
    rw [hw, List.length_cons]
    omega

theorem spells_randomVariants {l : Literal} (hl : ¬ l.IsPlain) :
    Always (randomVariants l l.bits.toBytes : StateM σ Bits) l.Spells := by
  refine .bind (Always.mapM _ fun b _ => ?_) fun picked hpicked =>
    .pure (Literal.spells_ofBytes hl hpicked)
  have hpos : 0 < (l.variants b).length := by simp [Literal.variants]
  refine .bind (Random.index_lt hpos) fun i hi => .pure ?_
  rw [← Literal.mem_variants_iff, List.getD_eq_getElem _ _ hi]
  exact List.getElem_mem hi

end Leaves

namespace Tree

variable {t : Tree Note} {ts : List (Tree Note)} {budget growthBits : Nat}

/-- The ranges of lengths in the tree begin with lengths of instances; none of these is cut at
`inf`. -/
def Uncut (t : Tree Note) : Prop :=
  t.Each fun s => s.sample.Defined → ∃ u ∈ s.language, u.length = s.sample.low

def Serves (t : Tree Note) (budget : Nat) (w : Bits) : Prop :=
  w ∈ t.language ∧ (t.Uncut → t.sample.low ≤ budget → budget ≤ inf → w.length ≤ budget)

theorem serves_of_length (hbounds : t.sample.Bounds t.language) {n : Nat}
    (h : ∀ w ∈ t.language, w.length = n) {w : Bits} (hw : w ∈ t.language) : t.Serves budget w := by
  refine ⟨hw, fun huncut hlow _ => ?_⟩
  obtain ⟨u, hu, hlength⟩ := huncut.root (hbounds.defined hw)
  rw [h w hw, ← h u hu, hlength]
  exact hlow

/-- Whatever the random choices are, bits that are generated serve, and there are some wherever
there are instances. -/
def Generates (σ : Type) [RandomSource σ] (growthBits : Nat) (t : Tree Note) : Prop :=
  ∀ budget, Always (t.generate growthBits budget : StateM σ _)
    (Outcome (¬ t.sample.Defined) (t.Serves budget))

variable {σ : Type} [RandomSource σ]

theorem generates_lit {n : Note} {l : Literal} (hvalid : (node n (.lit l)).Valid)
    (hfaithful : (node n (.lit l)).Faithful) (hflush : (node n (.lit l)).Flush) :
    Generates σ growthBits (node n (.lit l)) := by
  intro budget
  have hserves : ∀ w, l.Spells w → (node n (.lit l)).Serves budget w := fun w hw =>
    serves_of_length (hfaithful.bounds hvalid) (fun v hv =>
      Literal.length_of_spells hvalid.root.2 hv) hw
  have hplain : l.IsPlain ∨ n.lead = 0 := hflush.root
  rw [generate, Literal.flaggedBytes?_of_flush hplain]
  split
  case h_1 bytes hbytes =>
    have hflags : ¬ l.IsPlain ∧ l.bits.toBytes = bytes := by
      unfold Literal.flaggedBytes? Literal.bytes? at hbytes
      split at hbytes
      case isTrue => exact absurd hbytes (by simp)
      case isFalse hplain =>
        split at hbytes
        case isTrue => exact ⟨hplain, Option.some.inj hbytes⟩
        case isFalse => exact absurd hbytes (by simp)
    rw [← hflags.2]
    exact .map ((spells_randomVariants hflags.1).mono hserves)
  case h_2 => exact .pure (hserves l.bits (Literal.spells_bits hvalid.root.2))

/-! ## Alternatives -/

/-- What is chosen has instances, and it fits into the budget if anything does. -/
theorem of_mem_candidates {i : Nat} (h : i ∈ candidates ts budget) :
    ∃ t, ts[i]? = some t ∧ t.sample.Defined ∧
      ((∃ s ∈ ts, s.sample.Defined ∧ s.sample.low ≤ budget) → t.sample.low ≤ budget) := by
  unfold candidates at h
  obtain ⟨⟨t, j⟩, hmem, rfl⟩ := List.mem_map.1 h
  dsimp only at hmem
  split at hmem
  case isTrue hnone =>
    -- nothing fits, so the choice is among all that have instances
    simp only [List.mem_filter, decide_eq_true_iff] at hmem
    refine ⟨t, List.mem_zipIdx_iff_getElem?.1 hmem.1, hmem.2, fun ⟨s, hs, hdefined, hlow⟩ => ?_⟩
    obtain ⟨k, hk⟩ := List.mem_iff_getElem?.1 hs
    have hfits := List.filter_eq_nil_iff.1 (List.isEmpty_iff.1 hnone) (s, k)
      (List.mem_filter.2 ⟨List.mem_zipIdx_iff_getElem?.2 hk, decide_eq_true hdefined⟩)
    exact absurd (decide_eq_true hlow) hfits
  case isFalse =>
    simp only [List.mem_filter, decide_eq_true_iff] at hmem
    exact ⟨t, List.mem_zipIdx_iff_getElem?.1 hmem.1.1, hmem.1.2, fun _ => hmem.2⟩

theorem not_defined_of_candidates_eq_nil (h : candidates ts budget = []) :
    ∀ t ∈ ts, ¬ t.sample.Defined := by
  intro t ht hdefined
  obtain ⟨i, hi⟩ := List.mem_iff_getElem?.1 ht
  unfold candidates at h
  dsimp only at h
  rw [List.map_eq_nil_iff] at h
  split at h
  case isTrue =>
    exact List.filter_eq_nil_iff.1 h (t, i) (List.mem_zipIdx_iff_getElem?.2 hi)
      (decide_eq_true hdefined)
  case isFalse hsome => exact hsome (List.isEmpty_iff.2 h)

theorem generateNth_eq {i : Nat} (h : ts[i]? = some t) (budget : Nat) :
    (generateNth growthBits ts i budget : StateM σ _) = t.generate growthBits budget := by
  induction ts generalizing i with
  | nil => exact absurd h (by simp)
  | cons s ts ih =>
    cases i with
    | zero =>
      rw [List.getElem?_cons_zero, Option.some.injEq] at h
      rw [generateNth, h]
    | succ i => exact ih h

theorem generates_alt {n : Note} (hvalid : (node n (.alt ts)).Valid)
    (hfaithful : (node n (.alt ts)).Faithful) (h : ∀ t ∈ ts, Generates σ growthBits t) :
    Generates σ growthBits (node n (.alt ts)) := by
  intro budget
  have hbounds := hfaithful.bounds hvalid
  have hsub : ∀ s ∈ ts, s.sample.Bounds s.language := fun s hs =>
    Faithful.bounds (hfaithful.sub hs) (hvalid.sub hs)
  have hmem : ∀ {w}, w ∈ (node n (.alt ts)).language ↔ ∃ s ∈ ts, w ∈ s.language := by
    intro w
    rw [language_node]
    exact mem_sum_map
  rw [generate]
  split
  case h_1 hnil =>
    refine .pure fun hdefined => ?_
    obtain ⟨w, hw, -⟩ := hbounds.exists_high hdefined
    obtain ⟨s, hs, hws⟩ := hmem.1 hw
    exact not_defined_of_candidates_eq_nil hnil s hs ((hsub s hs).defined hws)
  case h_2 hsome =>
    refine .bind (Random.index_lt (List.length_pos_iff.2 hsome)) fun i hi => ?_
    rw [List.getD_eq_getElem _ _ hi]
    obtain ⟨s, hget, hdefined, hchoice⟩ := of_mem_candidates (List.getElem_mem hi)
    have hs : s ∈ ts := List.mem_of_getElem? hget
    rw [generateNth_eq hget]
    refine (h s hs budget).mono fun o ho => ho.mono (absurd hdefined) ?_
    rintro w ⟨hw, hlength⟩
    refine ⟨hmem.2 ⟨s, hs, hw⟩, fun huncut hlow hinf => hlength (huncut.sub hs) (hchoice ?_) hinf⟩
    -- the alternative of the shortest instance fits
    obtain ⟨u, hu, hshortest⟩ := huncut.root (hbounds.defined (hmem.2 ⟨s, hs, hw⟩))
    obtain ⟨s', hs', hu'⟩ := hmem.1 hu
    exact ⟨s', hs', (hsub s' hs').defined hu',
      ((hsub s' hs').low_le hu').trans (hshortest.le.trans hlow)⟩

/-! ## Sequences -/

theorem leastLength_eq (h : (ts.map fun t => t.sample.low).sum ≤ inf) :
    leastLength ts = (ts.map fun t => t.sample.low).sum := by
  have hfold : ∀ n, n + (ts.map fun t => t.sample.low).sum ≤ inf →
      ts.foldl (fun sum t => satAdd sum t.sample.low) n = n + (ts.map fun t =>
        t.sample.low).sum := by
    clear h
    induction ts with
    | nil => exact fun n _ => rfl
    | cons t ts ih =>
      intro n hn
      rw [List.map_cons, List.sum_cons] at hn ⊢
      rw [List.foldl_cons, satAdd_eq (by omega), ih _ (by omega), Nat.add_assoc]
  rw [leastLength, hfold 0 (by omega), Nat.zero_add]

/-- Each element leaves to the ones after it what is reserved for them. -/
theorem outcome_generateInOrder (h : ∀ t ∈ ts, Generates σ growthBits t) (budget reserved : Nat)
    (out : Produced) :
    Always (generateInOrder growthBits ts budget reserved out : StateM σ _)
      (Outcome (∃ t ∈ ts, ¬ t.sample.Defined) fun w =>
        ∃ v ∈ (ts.map language).prod, w = out.bits ++ v ∧
          ((∀ t ∈ ts, t.Uncut) → budget ≤ inf → reserved = (ts.map fun t => t.sample.low).sum →
            out.length + reserved ≤ budget → out.length + v.length ≤ budget)) := by
  induction ts generalizing reserved out with
  | nil =>
    refine .pure ⟨[], Language.nil_mem_one, by rw [List.append_nil], fun _ _ _ hfits => ?_⟩
    rw [List.length_nil]
    omega
  | cons t ts ih =>
    refine .bind (h t List.mem_cons_self _) fun o ho => ?_
    cases o with
    | none => exact .pure ⟨t, List.mem_cons_self, ho⟩
    | some piece =>
      obtain ⟨hpiece, hlength⟩ := ho
      refine (ih (fun s hs => h s (List.mem_cons_of_mem t hs)) _ (out.push piece)).mono fun o ho =>
        ho.mono ?_ ?_
      · exact fun ⟨s, hs, hnot⟩ => ⟨s, List.mem_cons_of_mem t hs, hnot⟩
      · rintro w ⟨v, hv, rfl, hrest⟩
        refine ⟨piece ++ v, ?_, ?_, fun huncut hinf hsum hfits => ?_⟩
        · rw [List.map_cons, List.prod_cons]
          exact Language.append_mem_mul hpiece hv
        · rw [Produced.bits_push, List.append_assoc]
        · rw [List.map_cons, List.sum_cons] at hsum
          have hle := hlength (huncut t List.mem_cons_self) (by omega) (by omega)
          have hmore := hrest (fun s hs => huncut s (List.mem_cons_of_mem t hs)) hinf (by omega)
          simp only [Produced.push] at hmore
          rw [List.length_append]
          omega

theorem generates_seq {n : Note} (hvalid : (node n (.seq ts)).Valid)
    (hfaithful : (node n (.seq ts)).Faithful) (h : ∀ t ∈ ts, Generates σ growthBits t) :
    Generates σ growthBits (node n (.seq ts)) := by
  intro budget
  have hsub : ∀ s ∈ ts, s.sample.Bounds s.language := fun s hs =>
    Faithful.bounds (hfaithful.sub hs) (hvalid.sub hs)
  have hbounds := hfaithful.bounds hvalid
  rw [language_node] at hbounds
  rw [generate]
  refine (outcome_generateInOrder h budget (leastLength ts) {}).mono fun o ho => ho.mono ?_ ?_
  · rintro ⟨s, hs, hnot⟩ hdefined
    obtain ⟨w, hw, -⟩ := hbounds.exists_high hdefined
    exact hnot ((Bounds.of_mem_prod hsub hw).1 s hs)
  · rintro w ⟨v, hv, heq, hlength⟩
    obtain rfl : w = v := heq
    refine ⟨?_, fun huncut hlow hinf => ?_⟩
    · rw [language_node]
      exact hv
    · -- the shortest instance needs what is reserved for all
      obtain ⟨u, hu, hshortest⟩ := huncut.root (hbounds.defined hv)
      rw [language_node] at hu
      have hsum := (Bounds.of_mem_prod hsub hu).2
      have hreserved : leastLength ts = (ts.map fun t => t.sample.low).sum :=
        leastLength_eq (by omega)
      have hempty : ({} : Produced).length = 0 := rfl
      have hle := hlength (fun s hs => huncut.sub hs) hinf hreserved (by omega)
      rwa [hempty, Nat.zero_add] at hle

/-! ## Repetitions -/

theorem atMost_maxCount (r : Repeat) (low budget growthBits : Nat) (hr : r.AtMost r.min) :
    r.AtMost (max r.min (maxCount r low budget growthBits)) := by
  intro m hm
  have hmin := hr m hm
  rw [Option.mem_def] at hm
  simp only [maxCount, hm, Option.getD_some]
  omega

/-- As many applications as are generated fit into a budget that the minimum fits into. -/
theorem mul_maxCount_le {r : Repeat} {low : Nat} (growthBits : Nat) (h : r.min * low ≤ budget) :
    max r.min (maxCount r low budget growthBits) * low ≤ budget := by
  rcases Nat.eq_zero_or_pos low with rfl | hpos
  · rw [Nat.mul_zero]
    exact Nat.zero_le budget
  · have hcount : max r.min (maxCount r low budget growthBits) ≤ max r.min (budget / low) := by
      simp only [maxCount, if_neg hpos.ne']
      omega
    have hfits : max r.min (budget / low) * low ≤ budget := by
      rcases max_choice r.min (budget / low) with hmax | hmax
      · rwa [hmax]
      · rw [hmax]
        exact Nat.div_mul_le_self budget low
    exact (Nat.mul_le_mul_right low hcount).trans hfits

/-- Each piece leaves to the ones after it what they need at least. -/
theorem outcome_generateTimes (h : Generates σ growthBits t) (budget count : Nat) (out : Produced) :
    Always (generateTimes (t.generate growthBits) t.sample.low budget count out : StateM σ _)
      (Outcome (¬ t.sample.Defined) fun w => ∃ v ∈ t.language ^ count, w = out.bits ++ v ∧
        (t.Uncut → budget ≤ inf → out.length + count * t.sample.low ≤ budget →
          out.length + v.length ≤ budget)) := by
  induction count generalizing out with
  | zero =>
    refine .pure ⟨[], Language.nil_mem_one, by rw [List.append_nil], fun _ _ hfits => ?_⟩
    rw [List.length_nil]
    omega
  | succ count ih =>
    refine .bind (h _) fun o ho => ?_
    cases o with
    | none => exact .pure ho
    | some piece =>
      obtain ⟨hpiece, hlength⟩ := ho
      refine (ih (out.push piece)).mono fun o ho => ho.mono id ?_
      rintro w ⟨v, hv, rfl, hrest⟩
      refine ⟨piece ++ v, ?_, ?_, fun huncut hinf hfits => ?_⟩
      · rw [pow_succ']
        exact Language.append_mem_mul hpiece hv
      · rw [Produced.bits_push, List.append_assoc]
      · rw [Nat.succ_mul] at hfits
        have hreserved : satMul count t.sample.low = count * t.sample.low := satMul_eq (by omega)
        have hle := hlength huncut (by omega) (by omega)
        have hmore := hrest huncut hinf
        simp only [Produced.push] at hmore
        rw [List.length_append]
        omega

/-- What holds of every number of pieces that the repetition, the growth and the budget admit holds
of what is generated. -/
theorem always_generate_rep {n : Note} {r : Repeat} {Q : Option Bits → Prop}
    (hdefined : t.sample.Defined)
    (h : ∀ count, r.min ≤ count → count ≤ max r.min (maxCount r t.sample.low budget growthBits) →
      Always (generateTimes (t.generate growthBits) t.sample.low budget count {} : StateM σ _) Q) :
    Always ((node n (.rep t r)).generate growthBits budget : StateM σ _) Q := by
  rw [generate, if_neg (not_not.2 hdefined)]
  dsimp only
  split
  case isTrue hlt =>
    exact .bind (Random.number_within hlt.le) fun count hcount =>
      h count hcount.1 (hcount.2.trans (Nat.le_max_right ..))
  case isFalse => exact h r.min le_rfl (Nat.le_max_left ..)

theorem generates_rep {n : Note} {r : Repeat} (hvalid : (node n (.rep t r)).Valid)
    (hfaithful : (node n (.rep t r)).Faithful) (h : Generates σ growthBits t) :
    Generates σ growthBits (node n (.rep t r)) := by
  intro budget
  have hs : t ∈ (Kind.rep t r).subs := List.mem_singleton_self t
  have hsub : t.sample.Bounds t.language := Faithful.bounds (hfaithful.sub hs) (hvalid.sub hs)
  have hbounds := hfaithful.bounds hvalid
  rw [language_node] at hbounds
  by_cases hdefined : t.sample.Defined
  · refine always_generate_rep hdefined fun count hmin hmax => ?_
    have hallows : r.Allows count := ⟨hmin, fun m hm =>
      hmax.trans (atMost_maxCount r t.sample.low budget growthBits hvalid.root m hm)⟩
    refine (outcome_generateTimes h budget count {}).mono fun o ho => ho.mono (absurd hdefined) ?_
    rintro w ⟨v, hv, heq, hlength⟩
    obtain rfl : w = v := heq
    have hw : w ∈ (node n (.rep t r)).language := by
      rw [language_node]
      exact ⟨count, hallows, hv⟩
    refine ⟨hw, fun huncut hlow hinf => ?_⟩
    -- the shortest instance has at least `r.min` pieces
    obtain ⟨u, hu, hshortest⟩ := huncut.root (hbounds.defined hw)
    rw [language_node] at hu
    obtain ⟨pieces, hpieces, hu⟩ := hu
    have hleast : r.min * t.sample.low ≤ pieces * t.sample.low := Nat.mul_le_mul_right _ hpieces.1
    have hshort := (hsub.of_mem_pow hu).2
    have hfits : count * t.sample.low ≤ budget :=
      (Nat.mul_le_mul_right _ hmax).trans (mul_maxCount_le growthBits (by omega))
    have hempty : ({} : Produced).length = 0 := rfl
    have hle := hlength (huncut.sub hs) hinf (by omega)
    rwa [hempty, Nat.zero_add] at hle
  · rw [generate, if_pos hdefined]
    split
    case isTrue hmin =>
      refine .pure ⟨?_, fun _ _ _ => Nat.zero_le budget⟩
      rw [language_node]
      exact ⟨0, ⟨hmin.le, atMost_zero r⟩, Language.nil_mem_one⟩
    case isFalse hmin =>
      refine .pure fun hrep => ?_
      obtain ⟨w, ⟨count, hcount, hw⟩, -⟩ := hbounds.exists_high hrep
      exact hdefined
        ((hsub.of_mem_pow hw).1 (Nat.lt_of_lt_of_le (Nat.pos_of_ne_zero hmin) hcount.1))

/-! ## All layers -/

/-- An instance is generated wherever there is one, and it is within the budget if the shortest
instances are. -/
theorem generates {t : Tree Note} (hvalid : t.Valid) (hfaithful : t.Faithful) (hflush : t.Flush)
    (growthBits : Nat) : Generates σ growthBits t := by
  induction t with
  | lit n l => exact generates_lit hvalid hfaithful hflush
  | any n bits =>
    intro budget
    rw [generate]
    exact .map ((length_randomBits bits []).mono fun w hw =>
      serves_of_length (hfaithful.bounds hvalid) (n := bits) (fun _ h => h) hw)
  | range n lo hi =>
    intro budget
    rw [generate]
    refine .map ((Random.byte_within hvalid.root).mono fun b hb => ?_)
    refine serves_of_length (hfaithful.bounds hvalid) (n := 8) ?_ ⟨b, hb.1, hb.2, rfl⟩
    rintro w ⟨c, -, -, rfl⟩
    exact Bits.length_ofByte c
  | anchor n a => exact fun budget => .pure ⟨Language.nil_mem_one, fun _ _ _ => Nat.zero_le budget⟩
  | alt n ts ih =>
    exact generates_alt hvalid hfaithful fun t ht => ih t ht (hvalid.sub ht) (hfaithful.sub ht)
      (hflush.sub ht)
  | seq n ts ih =>
    exact generates_seq hvalid hfaithful fun t ht => ih t ht (hvalid.sub ht) (hfaithful.sub ht)
      (hflush.sub ht)
  | rep n t r ih =>
    have hs : t ∈ (Kind.rep t r).subs := List.mem_singleton_self t
    exact generates_rep hvalid hfaithful (ih (hvalid.sub hs) (hfaithful.sub hs) (hflush.sub hs))
  | ctx n d t ih =>
    have hs : t ∈ (Kind.ctx d t).subs := List.mem_singleton_self t
    have hsame : (node n (.ctx d t)).sample = t.sample :=
      (hfaithful.bounds hvalid).unique (Faithful.bounds (hfaithful.sub hs) (hvalid.sub hs))
    intro budget
    rw [generate]
    refine (ih (hvalid.sub hs) (hfaithful.sub hs) (hflush.sub hs) budget).mono fun o ho =>
      ho.mono ?_ ?_
    · rw [hsame]
      exact id
    · rintro w ⟨hw, hlength⟩
      exact ⟨hw, fun huncut => hsame ▸ hlength (huncut.sub hs)⟩

variable {bound : BitRange}

/-- What is answered has been generated, and the bound admits its length. -/
theorem random_of_generate {Q : Bits → Prop}
    (h : Always (t.generate growthBits bound.high : StateM σ _) (Outcome True Q)) :
    Always (t.random growthBits bound : StateM σ _) (Outcome True fun w => Q w ∧
      bound.Admits w.length) := by
  have hattempts : ∀ attempts, Always (t.sampleWithin growthBits bound attempts : StateM σ _)
      (Outcome True fun w => Q w ∧ bound.Admits w.length) := by
    intro attempts
    induction attempts with
    | zero => exact .pure trivial
    | succ attempts ih =>
      refine .bind h fun o ho => ?_
      cases o with
      | none => exact ih
      | some w =>
        dsimp only
        split
        case isTrue hadmits => exact .pure ⟨ho, hadmits⟩
        case isFalse => exact ih
  unfold random
  split
  case isTrue => exact .pure trivial
  case isFalse => exact hattempts maxAttempts

end Tree

end Sigil
