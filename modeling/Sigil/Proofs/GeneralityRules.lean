import Sigil.Tree.Generality

namespace Sigil.Tree

/-- A relation that each rule of generality keeps. The pairs of trees may be restricted to `Good`
ones, as long as their sub-trees are good pairs too. -/
structure Rules (Good R : Tree Note → Tree Note → Prop) : Prop where
  good_left {a b s : Tree Note} : Good a b → s ∈ a.kind.subs → Good s b
  good_right {a b t : Tree Note} : Good a b → t ∈ b.kind.subs → Good a t
  same {a b : Tree Note} : a.same b = true → R a b
  empty {a b : Tree Note} : Good a b → ¬ b.sample.Defined → R a b
  constant {a b : Tree Note} {bits : Bits} : Good a b → b.sample.Defined → a.hasAnchors = false →
    b.constant? = some bits → a.accepts bits.toBytes.toArray bits.length = true → R a b
  ctx_left {n : Note} {d : Domain} {s b : Tree Note} : R s b → R (.node n (.ctx d s)) b
  ctx_right {n : Note} {d : Domain} {a t : Tree Note} : R a t → R a (.node n (.ctx d t))
  alt_left {n : Note} {ts : List (Tree Note)} {s b : Tree Note} : s ∈ ts → R s b →
    R (.node n (.alt ts)) b
  alt_right {n : Note} {ts : List (Tree Note)} {a : Tree Note} : (∀ t ∈ ts, R a t) →
    R a (.node n (.alt ts))
  any {n : Note} {bits : Nat} {b : Tree Note} : Good (.node n (.any bits)) b →
    b.sample = .fixed bits →
    R (.node n (.any bits)) b
  range {n m : Note} {lo hi lo' hi' : UInt8} : lo ≤ lo' → hi' ≤ hi →
    R (.node n (.range lo hi)) (.node m (.range lo' hi'))
  seq {n m : Note} {as bs : List (Tree Note)} {related : Tree Note → Tree Note → Bool} :
    Good (.node n (.seq as)) (.node m (.seq bs)) →
    (∀ a ∈ as, ∀ b ∈ bs, related a b = true → R a b) →
    inStep related as bs = true → R (.node n (.seq as)) (.node m (.seq bs))
  rep {n m : Note} {s t : Tree Note} {r q : Repeat} :
    Good (.node n (.rep s r)) (.node m (.rep t q)) →
    r.covers q = true → s.sameWidth t = true → R s t → R (.node n (.rep s r)) (.node m (.rep t q))
  rep_left {n : Note} {s b : Tree Note} {r : Repeat} : r.Allows 1 → R s b → R (.node n (.rep s r)) b

namespace Rules

variable {Good R : Tree Note → Tree Note → Prop} {related : Tree Note → Tree Note → Bool}
  {a b : Tree Note}

theorem of_layerGeneralizes (hrules : Rules Good R) (h : Good a b)
    (hrelated : ∀ a b, Good a b → related a b = true → R a b)
    (hlayer : layerGeneralizes related a b = true) : R a b := by
  obtain ⟨n, k⟩ := a
  obtain ⟨m, l⟩ := b
  unfold layerGeneralizes at hlayer
  dsimp only [kind] at hlayer
  split at hlayer
  case h_1 ts _ =>
    obtain ⟨s, hs, hmore⟩ := List.any_eq_true.1 hlayer
    exact hrules.alt_left hs (hrelated _ _ (hrules.good_left h hs) hmore)
  case h_2 bits _ _ => exact hrules.any h (beq_iff_eq.1 hlayer)
  case h_3 lo hi lo' hi' =>
    obtain ⟨hlo, hhi⟩ := of_decide_eq_true hlayer
    exact hrules.range hlo hhi
  case h_4 as bs =>
    exact hrules.seq h (fun s hs t ht =>
      hrelated s t (hrules.good_right (hrules.good_left h hs) ht)) hlayer
  case h_5 s r t q =>
    have hs : s ∈ (Kind.rep s r).subs := List.mem_singleton_self s
    have ht : t ∈ (Kind.rep t q).subs := List.mem_singleton_self t
    rw [Bool.and_eq_true, Bool.and_eq_true] at hlayer
    obtain ⟨⟨hcovers, hwidth⟩, hmore⟩ := hlayer
    exact hrules.rep h hcovers hwidth
      (hrelated s t (hrules.good_right (hrules.good_left h hs) ht) hmore)
  case h_6 _ s r _ =>
    have hs : s ∈ (Kind.rep s r).subs := List.mem_singleton_self s
    rw [Bool.and_eq_true, decide_eq_true_iff] at hlayer
    exact hrules.rep_left hlayer.1 (hrelated s _ (hrules.good_left h hs) hlayer.2)
  case h_7 => exact absurd hlayer Bool.false_ne_true

theorem of_bareGeneralizes (hrules : Rules Good R) (h : Good a b)
    (hrelated : ∀ a b, Good a b → related a b = true → R a b)
    (hbare : bareGeneralizes related a b = true) : R a b := by
  unfold bareGeneralizes at hbare
  split at hbare
  case isTrue hundefined => exact hrules.empty h hundefined
  case isFalse hdefined =>
    split at hbare
    case isTrue => exact absurd hbare Bool.false_ne_true
    case isFalse =>
      obtain ⟨m, l⟩ := b
      split at hbare
      case h_1 ts hts =>
        obtain rfl : l = .alt ts := hts
        exact hrules.alt_right fun t ht => hrelated a t (hrules.good_right h ht)
          (List.all_eq_true.1 hbare t ht)
      case h_2 =>
        split at hbare
        case h_1 bits hbits =>
          split at hbits
          case isTrue => exact absurd hbits (by simp)
          case isFalse hanchors =>
            exact hrules.constant h (Decidable.not_not.1 hdefined) (eq_false_of_ne_true hanchors)
              hbits hbare
        case h_2 => exact hrules.of_layerGeneralizes h hrelated hbare

/-- The rules are all that generality is decided by. -/
theorem of_generalizesWithin (hrules : Rules Good R) (fuel : Nat) (h : Good a b)
    (hgeneral : generalizesWithin fuel a b = true) : R a b := by
  induction fuel generalizing a b with
  | zero => exact absurd hgeneral Bool.false_ne_true
  | succ fuel ih =>
    rw [generalizesWithin, Bool.or_eq_true] at hgeneral
    rcases hgeneral with hsame | hgeneral
    · exact hrules.same hsame
    · obtain ⟨n, k⟩ := a
      obtain ⟨m, l⟩ := b
      have hsub : ∀ (n : Note) (d : Domain) (s : Tree Note), s ∈ (node n (.ctx d s)).kind.subs :=
        fun _ _ s => List.mem_singleton_self s
      split at hgeneral
      case h_1 d s e t hk hl =>
        obtain rfl : k = .ctx d s := hk
        obtain rfl : l = .ctx e t := hl
        rw [Bool.and_eq_true] at hgeneral
        have hboth :=
          ih (hrules.good_right (hrules.good_left h (hsub n d s)) (hsub m e t)) hgeneral.2
        exact hrules.ctx_left (hrules.ctx_right hboth)
      case h_2 d s hk _ =>
        obtain rfl : k = .ctx d s := hk
        exact hrules.ctx_left (ih (hrules.good_left h (hsub n d s)) hgeneral)
      case h_3 e t hl _ =>
        obtain rfl : l = .ctx e t := hl
        exact hrules.ctx_right (ih (hrules.good_right h (hsub m e t)) hgeneral)
      case h_4 => exact hrules.of_bareGeneralizes h (fun a b => ih) hgeneral

end Rules

end Sigil.Tree
