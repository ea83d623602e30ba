import Sigil.Proofs.Plain

namespace Sigil

def Room (L : Language Bool) (pos limit : Nat) : Prop := ∀ w ∈ L, pos + w.length ≤ limit

section

variable {data : Buffer} {limit far : Nat}

/-- As long as another application is allowed, there is room for it. -/
theorem greedy_limit {near wide : Nat → Option Nat} {L : Language Bool} {r : Repeat}
    (hr : r.AtMost r.min) (hnear : Reads data limit near L)
    (hsame : ∀ pos ≤ limit, Room L pos limit → wide pos = near pos) (fuel : Nat) {pos count : Nat}
    (hpos : pos ≤ limit) (hroom : ∀ n, r.Allows (count + n) → Room (L ^ n) pos limit) :
    greedy wide r fuel pos count = greedy near r fuel pos count := by
  induction fuel generalizing pos count with
  | zero => rfl
  | succ fuel ih =>
    unfold greedy
    split
    case isTrue => rfl
    case isFalse hmax =>
      -- one more string, repeated as often as is still needed, makes an instance
      have hone : Room L pos limit := by
        intro w hw
        have hallows : r.Allows (max (count + 1) r.min) := allows_max hr (atMost_succ hmax)
        obtain ⟨n, hn⟩ : ∃ n, max (count + 1) r.min = count + (n + 1) :=
          ⟨max (count + 1) r.min - (count + 1), by omega⟩
        rw [hn] at hallows
        have hpow : w ++ (List.replicate n w).flatten ∈ L ^ (n + 1) := by
          rw [pow_succ']
          exact Language.append_mem_mul hw (replicate_mem_pow hw n)
        have hle := hroom (n + 1) hallows _ hpow
        rw [List.length_append] at hle
        omega
      rw [hsame pos hpos hone]
      cases hstop : near pos with
      | none => rfl
      | some stop =>
        obtain ⟨hle, w, hw, hsum, -⟩ := hnear pos stop hpos hstop
        dsimp only
        split
        case isTrue => rfl
        case isFalse =>
          apply ih hle
          -- what may still follow `w` makes an instance together with it
          intro n hallows v hv
          have hallows' : r.Allows (count + (n + 1)) := by rwa [Nat.add_comm n, ← Nat.add_assoc]
          have hpow : w ++ v ∈ L ^ (n + 1) := by
            rw [pow_succ']
            exact Language.append_mem_mul hw hv
          have hlong := hroom (n + 1) hallows' (w ++ v) hpow
          rw [List.length_append] at hlong
          omega

theorem foldlM_limit {α : Type} {near wide : α → Nat → Option Nat} {language : α → Language Bool}
    {subs : List α} (hle : limit ≤ far) (hnear : ∀ s ∈ subs, Reads data limit (near s) (language s))
    (hwide : ∀ s ∈ subs, Reads data far (wide s) (language s))
    (hsame : ∀ s ∈ subs, ∀ pos ≤ limit, Room (language s) pos limit → wide s pos = near s pos)
    {pos : Nat} (hpos : pos ≤ limit) (hroom : Room (subs.map language).prod pos limit) :
    subs.foldlM (fun pos s => wide s pos) pos = subs.foldlM (fun pos s => near s pos) pos := by
  by_cases hempty : ∃ w, w ∈ (subs.map language).prod
  case neg =>
    -- without instances there is no match, whatever the limit
    have hnone : ∀ (limit : Nat) (step : α → Nat → Option Nat), pos ≤ limit →
        (∀ s ∈ subs, Reads data limit (step s) (language s)) →
          subs.foldlM (fun pos s => step s pos) pos = none := by
      intro limit step hpos hreads
      rw [Option.eq_none_iff_forall_ne_some]
      intro stop hstop
      obtain ⟨-, w, hw, -⟩ := reads_foldlM hreads pos stop hpos hstop
      exact hempty ⟨w, hw⟩
    rw [hnone far wide (hpos.trans hle) hwide, hnone limit near hpos hnear]
  case pos =>
    induction subs generalizing pos with
    | nil => rfl
    | cons s subs ih =>
      obtain ⟨w, hw⟩ := hempty
      rw [List.map_cons, List.prod_cons] at hw hroom
      obtain ⟨x, hx, y, hy, rfl⟩ := Language.mem_mul.1 hw
      -- `y` completes every string of the first factor to an instance
      have hfirst : Room (language s) pos limit := by
        intro z hz
        have hlong := hroom (z ++ y) (Language.append_mem_mul hz hy)
        rw [List.length_append] at hlong
        omega
      rw [List.foldlM_cons, List.foldlM_cons, hsame s List.mem_cons_self pos hpos hfirst]
      cases hmid : near s pos with
      | none => rfl
      | some mid =>
        obtain ⟨hmidle, z, hz, hsum, -⟩ := hnear s List.mem_cons_self pos mid hpos hmid
        have hrest : Room (subs.map language).prod mid limit := by
          intro v hv
          have hlong := hroom (z ++ v) (Language.append_mem_mul hz hv)
          rw [List.length_append] at hlong
          omega
        exact ih (fun t ht => hnear t (List.mem_cons_of_mem s ht))
          (fun t ht => hwide t (List.mem_cons_of_mem s ht))
          (fun t ht => hsame t (List.mem_cons_of_mem s ht)) hmidle hrest ⟨y, hy⟩

theorem Kind.stopAt_limit {α : Type} {near wide : α → Nat → Option Nat}
    {language : α → Language Bool} {k : Kind α} (hk : k.Valid) (hle : limit ≤ far)
    (hnear : ∀ s ∈ k.subs, Reads data limit (near s) (language s))
    (hwide : ∀ s ∈ k.subs, Reads data far (wide s) (language s))
    (hsame : ∀ s ∈ k.subs, ∀ pos ≤ limit, Room (language s) pos limit → wide s pos = near s pos)
    {pos : Nat} (hpos : pos ≤ limit) (hroom : Room (k.map language).language pos limit) :
    (k.map wide).stopAt data far pos = (k.map near).stopAt data limit pos := by
  cases k with
  | lit l =>
    have hfits : pos + l.length ≤ limit := hroom l.bits (Literal.spells_bits hk.2)
    have hoccurs : l.occursAt 0 data pos far = l.occursAt 0 data pos limit := by
      unfold Literal.occursAt
      simp only [hfits, hfits.trans hle, true_and]
    simp only [map, stopAt, hoccurs]
  | any bits =>
    have hfits := hroom (List.replicate bits false) List.length_replicate
    rw [List.length_replicate] at hfits
    simp only [map, stopAt, hfits, hfits.trans hle]
  | range lo hi =>
    have hfits := hroom (Bits.ofByte lo) ⟨lo, UInt8.le_refl lo, hk, rfl⟩
    rw [Bits.length_ofByte] at hfits
    simp only [map, stopAt, hfits, hfits.trans hle]
  | anchor a => rfl
  | alt subs =>
    simp only [map, stopAt, List.findSome?_map]
    apply findSome?_congr
    intro s hs
    have hfits : Room (language s) pos limit := fun w hw => hroom w (mem_sum_map.2 ⟨s, hs, hw⟩)
    exact hsame s hs pos hpos hfits
  | seq subs =>
    simp only [map, stopAt, List.foldlM_map]
    exact foldlM_limit hle hnear hwide hsame hpos hroom
  | rep s r =>
    have hs : s ∈ (Kind.rep s r).subs := List.mem_singleton_self s
    have hfits : ∀ n, r.Allows (0 + n) → Room (language s ^ n) pos limit := by
      intro n hn w hw
      rw [Nat.zero_add] at hn
      exact hroom w ⟨n, hn, hw⟩
    have hgreedy := greedy_limit hk (hnear s hs) (hsame s hs) (far - pos + 1) hpos hfits
    -- the limit also sets the fuel, but neither amount is ever used up
    have hfuel := greedy_fuel (hnear s hs).forward r 0 hpos (Nat.lt_succ_self (limit - pos))
      (by omega : limit - pos < far - pos + 1)
    simp only [map, stopAt, plainRepeat, hgreedy, hfuel]
  | ctx d s => exact hsame s (List.mem_singleton_self s) pos hpos hroom

/-- With room for every instance, another limit further on changes nothing. -/
theorem Tree.plainAt_limit {ν : Type} {t : Tree ν} (ht : t.Valid) (hle : limit ≤ far)
    (hfar : far ≤ data.bitSize) {pos : Nat} (hpos : pos ≤ limit)
    (hroom : Room t.language pos limit) : t.plainAt data far pos = t.plainAt data limit pos := by
  induction t using induct_subs generalizing pos with
  | node n k ih =>
    rw [plainAt_node, plainAt_node]
    rw [language_node] at hroom
    exact Kind.stopAt_limit ht.root hle (fun s hs => reads_plainAt (ht.sub hs) (hle.trans hfar))
      (fun s hs => reads_plainAt (ht.sub hs) hfar)
      (fun s hs pos hpos hroom => ih s hs (ht.sub hs) hpos hroom) hpos hroom

end

end Sigil
