import Sensys.Lib.Hierarchy
/-!
# Routing in a forest, hop by hop

A message for `t` goes one label at a time. A label that relays hands it to its child towards `t`
if `t` is under it; every other one hands it to its parent (`Routing`). `delivers_iff` says
between which labels that arrives, `settles` what happens else.
-/
namespace Hier

variable {α : Type} {F : Hier α} {a b c s t v : α}

/-- The label `a` is `b`, or under it. -/
def Within (F : Hier α) (a b : α) : Prop := a = b ∨ Under F a b

theorem Within.refl (F : Hier α) (a : α) : Within F a a := Or.inl rfl

section
variable (hF : F.labels.Nodup)
include hF

theorem Within.trans (h : Within F a b) (h' : Within F b c) : Within F a c := by
  rcases h with rfl | h
  · exact h'
  · rcases h' with rfl | h'
    · exact Or.inr h
    · exact Or.inr (h.trans hF h')

theorem Within.trans_under (h : Within F a b) (h' : Under F b c) : Under F a c := by
  rcases h with rfl | h
  · exact h'
  · exact h.trans hF h'

theorem Parent.within (h : Parent F b a) (h' : Under F b c) : Within F a c := h.between hF h'

theorem Under.total (h : Under F c a) (h' : Under F c b) : Within F a b ∨ Under F b a := by
  rw [under_iff_transGen hF] at h
  induction h using Relation.TransGen.head_induction_on with
  | single hpar => exact Or.inl (hpar.within hF h')
  | head hpar hta ih =>
    rcases hpar.within hF h' with rfl | hun
    · exact Or.inr ((under_iff_transGen hF).2 hta)
    · exact ih hun

theorem Parent.within_child (hpar : Parent F b a) (ht : Within F t b) (hc : Under F c a)
    (h : Under F t c) : Within F c b := by
  have hno : ¬ Under F b c := by
    intro hbc
    rcases hpar.within hF hbc with rfl | hac
    · exact hc.ne hF rfl
    · exact (hc.trans hF hac).ne hF rfl
  rcases ht with rfl | ht
  · exact absurd h hno
  · exact (h.total hF ht).resolve_right hno

end

/-! ## Messages -/

/-- What a label does with a message for `t` that is not for itself. -/
structure Routing (F : Hier α) (relays : α → Prop) (t : α) (next : α → Option α) : Prop where
  down : ∀ v, v ≠ t → relays v → Under F t v → ∃ b, next v = some b ∧ Parent F b v ∧ Within F t b
  up   : ∀ v, v ≠ t → ¬ (relays v ∧ Under F t v) →
    (∃ b, next v = some b ∧ Parent F v b) ∨ ((∀ b, ¬ Parent F v b) ∧ ∀ b, next v = some b → b = v)

/-- The message arrives, and no label is visited twice. -/
def Delivers (next : α → Option α) (s t : α) : Prop :=
  ∃ path, (s :: path).IsChain (fun a b => next a = some b) ∧ (s :: path).getLast? = some t ∧
    (s :: path).Nodup

/-- From a label above both, all labels down to `t` relay. -/
def Reaches (F : Hier α) (relays : α → Prop) (s t : α) : Prop :=
  ∃ c, Within F s c ∧ Within F t c ∧ ∀ b, Within F b c → Under F t b → relays b

section
variable {relays : α → Prop} {next : α → Option α} {P : α → Prop}

theorem reaches_of_path (hF : F.labels.Nodup) (hr : Routing F relays t next) {path : List α}
    (hch : (v :: path).IsChain (fun a b => next a = some b))
    (hlast : (v :: path).getLast? = some t) : Reaches F relays v t := by
  have hse : Reaches F relays t t := by
    refine ⟨t, Within.refl F t, Within.refl F t, fun b hb ht => ?_⟩
    exact absurd rfl ((hb.trans_under hF ht).ne hF)
  induction path generalizing v with
  | nil =>
    cases hlast
    exact hse
  | cons w path ih =>
    obtain ⟨hnext, hch⟩ := List.isChain_cons_cons.1 hch
    obtain ⟨c, hwc, htc, hall⟩ := ih hch hlast
    by_cases hvt : v = t
    · rw [hvt]
      exact hse
    · by_cases hdo : relays v ∧ Under F t v
      · obtain ⟨b, hb, hpar, htb⟩ := hr.down v hvt hdo.1 hdo.2
        obtain rfl : w = b := Option.some.inj (hnext.symm.trans hb)
        rcases hwc with rfl | hwc
        · -- the way down started at the child, and starts at `v` now
          refine ⟨v, Within.refl F v, Or.inr hdo.2, fun b hb ht => ?_⟩
          rcases hb with rfl | hb
          · exact hdo.1
          · exact hall b (hpar.within_child hF htb hb ht) ht
        · exact ⟨c, hpar.within hF hwc, htc, hall⟩
      · rcases hr.up v hvt hdo with ⟨b, hb, hpar⟩ | ⟨-, hse⟩
        · obtain rfl : w = b := Option.some.inj (hnext.symm.trans hb)
          exact ⟨c, Within.trans hF (Or.inr hpar.under) hwc, htc, hall⟩
        · rw [hse w hnext] at hwc
          exact ⟨c, hwc, htc, hall⟩

/-- A path from `v` to `t` that visits only labels with a property. -/
def PathIn (next : α → Option α) (t : α) (P : α → Prop) (v : α) : Prop :=
  ∃ path, (v :: path).IsChain (fun a b => next a = some b) ∧ (v :: path).getLast? = some t ∧
    (v :: path).Nodup ∧
    ∀ x ∈ v :: path, P x

theorem PathIn.nil (ht : P t) : PathIn next t P t :=
  ⟨[], .singleton t, rfl, List.pairwise_singleton _ _, by simpa using ht⟩

theorem PathIn.cons {P Q : α → Prop} (h : PathIn next t P b) (hnext : next v = some b)
    (hnew : ¬ P v) (hv : Q v) (hPQ : ∀ x, P x → Q x) : PathIn next t Q v := by
  obtain ⟨path, hch, hlast, hno, hall⟩ := h
  refine ⟨b :: path, List.isChain_cons_cons.2 ⟨hnext, hch⟩,
    by rwa [List.getLast?_cons_cons], ?_, ?_⟩
  · exact List.nodup_cons.2 ⟨fun hmem => hnew (hall v hmem), hno⟩
  · exact List.forall_mem_cons.2 ⟨hv, fun x hx => hPQ x (hall x hx)⟩

theorem PathIn.delivers (h : PathIn next t P s) : Delivers next s t := by
  obtain ⟨path, hch, hlast, hno, -⟩ := h
  exact ⟨path, hch, hlast, hno⟩

/-- From `v` the message gets to `t`, or to a label that has no next one or exchanges it with the
next one for ever. -/
def Settles (next : α → Option α) (t v : α) : Prop :=
  ∃ w, Relation.ReflTransGen (fun a b => next a = some b) v w ∧
    (w = t ∨ ∀ b, next w = some b → next b = some w)

theorem Settles.head (h : Settles next t b) (hnext : next v = some b) : Settles next t v := by
  obtain ⟨w, hw, hend⟩ := h
  exact ⟨w, .head hnext hw, hend⟩

section
variable (hF : F.labels.Nodup) (hr : Routing F relays t next)
include hF hr

theorem path_down (ht : Within F t v)
    (hall : ∀ b, Within F b v → Under F t b → relays b) :
    PathIn next t (fun x => Within F t x ∧ Within F x v) v := by
  rcases ht with rfl | ht
  · exact .nil ⟨Within.refl F t, Within.refl F t⟩
  · obtain ⟨G, hG, htG⟩ := ht
    -- along the size of what is under `v`
    induction hn : G.labels.length using Nat.strongRecOn generalizing v G with
    | ind n ih =>
      subst hn
      have hun : Under F t v := ⟨G, hG, htG⟩
      obtain ⟨b, hnext, hpar, htb⟩ := hr.down v (hun.ne hF).symm (hall v (Within.refl F v) hun) hun
      have hnew : ¬ (Within F t v ∧ Within F v b) :=
        fun hbo => (hbo.2.trans_under hF hpar.under).ne hF rfl
      have hpa : PathIn next t (fun x => Within F t x ∧ Within F x b) b := by
        rcases htb with rfl | ⟨H, hH, htH⟩
        · exact .nil ⟨Within.refl F t, Within.refl F t⟩
        · obtain ⟨G', hG', htop⟩ := hpar
          obtain ⟨H', hH'⟩ := mem_labels_iff.1 (G'.tops_subset htop)
          rw [hG'.unique hF hG] at hH'
          rw [hH.unique hF (hG.trans hH')] at htH
          refine ih _ hH'.length_lt (fun c hc htc => hall c (hc.trans hF (Or.inr ?_)) htc) H'
            (hG.trans hH') htH rfl
          exact ⟨G, hG, hH'.mem_labels⟩
      refine hpa.cons hnext hnew ⟨Or.inr hun, Within.refl F v⟩ fun x hx =>
        ⟨hx.1, hx.2.trans hF (Or.inr hpar.under)⟩

theorem path_of_reaches (hs : Within F s c) (ht : Within F t c)
    (hall : ∀ b, Within F b c → Under F t b → relays b) :
    PathIn next t (fun x => Within F t x ∨ Within F s x) s := by
  have hdo : ∀ {v}, Within F v c → Within F t v →
      PathIn next t (fun x => Within F t x ∨ Within F v x) v := by
    intro v hv htv
    obtain ⟨path, hch, hlast, hnod, hpa⟩ := path_down hF hr htv fun b hb => hall b (hb.trans hF hv)
    exact ⟨path, hch, hlast, hnod, fun x hx => Or.inl (hpa x hx).1⟩
  rcases hs with rfl | hs
  · exact hdo (Within.refl F s) ht
  · rw [under_iff_transGen hF] at hs
    have hup : ∀ {v b}, Parent F v b → Within F b c →
      PathIn next t (fun x => Within F t x ∨ Within F b x) b →
        PathIn next t (fun x => Within F t x ∨ Within F v x) v := by
      intro v b hpar hbc hpa
      have hvc : Within F v c := Within.trans hF (Or.inr hpar.under) hbc
      by_cases htv : Within F t v
      · exact hdo hvc htv
      · have hvt : v ≠ t := fun heq => htv (Or.inl heq.symm)
        rcases hr.up v hvt fun hbo => htv (Or.inr hbo.2) with ⟨b', hnext, hpar'⟩ | ⟨hno, -⟩
        · rw [hpar'.unique hF hpar] at hnext
          refine hpa.cons hnext (fun hv => ?_) (Or.inr (Within.refl F v)) fun x hx =>
            hx.imp id fun hbx => ?_
          · rcases hv with hv | hv
            · exact htv hv
            · exact (hv.trans_under hF hpar.under).ne hF rfl
          · exact Within.trans hF (Or.inr hpar.under) hbx
        · exact absurd hpar (hno b)
    induction hs using Relation.TransGen.head_induction_on with
    | single hpar => exact hup hpar (Within.refl F c) (hdo (Within.refl F c) ht)
    | head hpar hta ih => exact hup hpar (Or.inr ((under_iff_transGen hF).2 hta)) ih

/-- **Which messages arrive.** -/
theorem delivers_iff : Delivers next s t ↔ Reaches F relays s t := by
  constructor
  · rintro ⟨path, hch, hlast, -⟩
    exact reaches_of_path hF hr hch hlast
  · rintro ⟨c, hs, ht, hall⟩
    exact (path_of_reaches hF hr hs ht hall).delivers

theorem settles_down {G : Hier α} (hre : relays v) (hG : Below F v G) (ht : t ∈ G.labels) :
    Settles next t v := by
  induction hn : G.labels.length using Nat.strongRecOn generalizing v G with
  | ind n ih =>
    subst hn
    have hun : Under F t v := ⟨G, hG, ht⟩
    obtain ⟨b, hnext, hpar, rfl | htb⟩ := hr.down v (hun.ne hF).symm hre hun
    · exact ⟨t, .single hnext, Or.inl rfl⟩
    · by_cases hb : relays b
      · obtain ⟨G', hG', htop⟩ := hpar
        obtain ⟨H, hH⟩ := mem_labels_iff.1 (G'.tops_subset htop)
        rw [hG'.unique hF hG] at hH
        obtain ⟨H', hH', htH⟩ := htb
        rw [hH'.unique hF (hG.trans hH)] at htH
        exact (ih _ hH.length_lt hb (hG.trans hH) htH rfl).head hnext
      · -- the child hands it back
        rcases hr.up b (htb.ne hF).symm fun hbo => hb hbo.1 with ⟨c, hc, hpar'⟩ | ⟨hno, -⟩
        · rw [hpar'.unique hF hpar] at hc
          exact ⟨v, .refl, Or.inr fun d hd => by rw [← Option.some.inj (hnext.symm.trans hd), hc]⟩
        · exact absurd hpar (hno v)

theorem settles_of_parent (h : ∀ b, Parent F v b → Settles next t b) : Settles next t v := by
  by_cases hvt : v = t
  · exact ⟨v, .refl, Or.inl hvt⟩
  · by_cases hdo : relays v ∧ Under F t v
    · obtain ⟨hre, G, hG, ht⟩ := hdo
      exact settles_down hF hr hre hG ht
    · rcases hr.up v hvt hdo with ⟨b, hb, hpar⟩ | ⟨-, hse⟩
      · exact (h b hpar).head hb
      · refine ⟨v, .refl, Or.inr fun b hb => ?_⟩
        obtain rfl := hse b hb
        exact hb

/-- **What becomes of a message**, wherever it starts. -/
theorem settles (v : α) : Settles next t v := by
  have hstep : ∀ {v b}, Parent F v b → Settles next t b → Settles next t v := fun hpar hb =>
    settles_of_parent hF hr fun c hc => by rwa [hc.unique hF hpar]
  have htop : ∀ a ∈ F.tops, Settles next t a := fun a ha =>
    settles_of_parent hF hr fun b hb => absurd hb.under (not_under_of_top hF ha)
  by_cases hv : v ∈ F.labels
  · rcases top_or_under hv with hv | ⟨a, ha, hun⟩
    · exact htop v hv
    · -- up to the top
      clear hv
      rw [under_iff_transGen hF] at hun
      induction hun using Relation.TransGen.head_induction_on with
      | single hpar => exact hstep hpar (htop a ha)
      | head hpar _ ih => exact hstep hpar ih
  · exact settles_of_parent hF hr fun b hb => absurd hb.under.mem_left hv

end

end

end Hier
