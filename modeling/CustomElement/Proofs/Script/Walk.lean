import CustomElement.Proofs.Outcome
import CustomElement.Script.Erasure.Scan

/-!
# The course of a walk

The walk goes from site to site: from a token into the group that opens there, and on to the token behind it (`Leads`).
Its edits are those of the decisions at the sites that it visits, in order (`scanAt_eq_ok_iff_visits`).
-/

namespace CustomElement.Script

variable {edits : List Edit} {c d : Site} {visits : List (Site × Move)}

/-- Where a walk stands: at a position of a frame, with what it remembers of the frame. -/
structure Site where
  frame : Frame
  progress : Progress
  hi : Nat
  pos : Nat

namespace Site

def Open (c : Site) : Prop := c.pos < c.hi

def inside (c : Site) (inner : Inner) : Site := ⟨inner.frame, {}, min inner.hi c.hi, max inner.lo (c.pos + 1)⟩

def onward (c : Site) (move : Move) : Site := ⟨c.frame, move.progress, c.hi, max move.next (c.pos + 1)⟩

end Site

namespace Stream

variable (s : Stream) (erase : String → Except Fault String)

def stepAt (c : Site) : Except Fault Move := s.step erase c.frame c.progress c.hi c.pos

@[inherit_doc scan]
def scanAt (c : Site) : Except Fault (List Edit) := s.scan erase c.frame c.progress c.hi c.pos

inductive Leads : Site → Site → Prop
  | inside {c : Site} {move : Move} {inner : Inner} (hopen : c.Open) (hstep : s.stepAt erase c = .ok move)
      (hinner : move.inner = some inner) : Leads c (c.inside inner)
  | onward {c : Site} {move : Move} (hopen : c.Open) (hstep : s.stepAt erase c = .ok move) : Leads c (c.onward move)

def Reaches : Site → Site → Prop := Relation.ReflTransGen (s.Leads erase)

variable {s erase}

lemma Leads.open (h : s.Leads erase c d) : c.Open := by
  cases h with
  | inside ho hs hin => exact ho
  | onward ho hs => exact ho

lemma Leads.lt (h : s.Leads erase c d) : d.hi - d.pos < c.hi - c.pos := by
  have ho : c.pos < c.hi := h.open
  cases h with
  | inside ho' hs hin =>
    simp only [Site.inside]
    omega
  | onward ho' hs =>
    simp only [Site.onward]
    omega

variable (s erase) in
lemma site_induction {motive : Site → Prop} (h : ∀ c, (∀ d, s.Leads erase c d → motive d) → motive c) (c : Site) :
    motive c := by
  generalize hn : c.hi - c.pos = n
  induction n using Nat.strong_induction_on generalizing c with
  | _ n ih => exact h c fun d hd => ih _ (hn ▸ hd.lt) d rfl

namespace Reaches

variable {e : Site}

lemma refl (c : Site) : s.Reaches erase c c := Relation.ReflTransGen.refl

lemma head (h : s.Leads erase c d) (h' : s.Reaches erase d e) : s.Reaches erase c e :=
  Relation.ReflTransGen.head h h'

lemma cases_head (h : s.Reaches erase c e) : c = e ∨ ∃ d, s.Leads erase c d ∧ s.Reaches erase d e :=
  Relation.ReflTransGen.cases_head h

lemma induction {P : Site → Prop} (hs : ∀ a b, s.Leads erase a b → P a → P b) (h : s.Reaches erase c d)
    (hc : P c) : P d := by
  induction h with
  | refl => exact hc
  | tail hr hl ih => exact hs _ _ hl ih

end Reaches

lemma scanAt_eq_ok_iff : s.scanAt erase c = .ok edits ↔ ¬ c.Open ∧ edits = [] ∨ c.Open ∧ ∃ move within rest,
      s.stepAt erase c = .ok move ∧ (match move.inner with
          | some inner => s.scanAt erase (c.inside inner) = .ok within
          | none => within = []) ∧
        s.scanAt erase (c.onward move) = .ok rest ∧ edits = move.edits ++ within ++ rest := by
  rw [scanAt, scan]
  by_cases ho : c.pos < c.hi
  · rw [if_pos ho, bind_eq_ok]
    simp only [Site.Open, ho, not_true_eq_false, false_and, false_or, true_and]
    refine exists_congr fun move => ?_
    constructor
    · rintro ⟨hs, hr⟩
      cases hin : move.inner with
      | some inner =>
        simp only [hin] at hr
        obtain ⟨within, hw, hr⟩ := bind_eq_ok.1 hr
        obtain ⟨rest, hr, heq⟩ := bind_eq_ok.1 hr
        exact ⟨within, rest, hs, hw, hr, (ok.inj heq).symm⟩
      | none =>
        simp only [hin] at hr
        obtain ⟨within, hw, hr⟩ := bind_eq_ok.1 hr
        obtain ⟨rest, hr, heq⟩ := bind_eq_ok.1 hr
        exact ⟨within, rest, hs, (ok.inj hw).symm, hr, (ok.inj heq).symm⟩
    · rintro ⟨within, rest, hs, hw, hr, rfl⟩
      refine ⟨hs, ?_⟩
      cases hin : move.inner with
      | some inner =>
        simp only [hin] at hw ⊢
        exact bind_eq_ok.2 ⟨within, hw, bind_eq_ok.2 ⟨rest, hr, rfl⟩⟩
      | none =>
        simp only [hin] at hw ⊢
        exact bind_eq_ok.2 ⟨[], rfl, bind_eq_ok.2 ⟨rest, hr, by rw [hw]; rfl⟩⟩
  · rw [if_neg ho]
    simp only [Site.Open, ho, not_false_eq_true, true_and, false_and, or_false]
    constructor
    · intro h
      exact (ok.inj h).symm
    · rintro rfl
      rfl

variable (s erase) in
/-- The sites that a walk visits, in order, and its decisions there. -/
inductive Visits : Site → List (Site × Move) → Prop
  | done {c : Site} (hclosed : ¬ c.Open) : Visits c []
  | leaf {c : Site} {move : Move} {rest : List (Site × Move)} (hopen : c.Open) (hstep : s.stepAt erase c = .ok move)
      (hinner : move.inner = none) (hrest : Visits (c.onward move) rest) : Visits c ((c, move) :: rest)
  | group {c : Site} {move : Move} {inner : Inner} {within rest : List (Site × Move)} (hopen : c.Open)
      (hstep : s.stepAt erase c = .ok move) (hinner : move.inner = some inner)
      (hwithin : Visits (c.inside inner) within) (hrest : Visits (c.onward move) rest) :
      Visits c ((c, move) :: (within ++ rest))

lemma scanAt_eq_ok_iff_visits :
    s.scanAt erase c = .ok edits ↔ ∃ visits, s.Visits erase c visits ∧ edits = visits.flatMap (·.2.edits) := by
  constructor
  · induction c using s.site_induction erase generalizing edits with
    | _ c ih =>
    intro h
    obtain ⟨hc, rfl⟩ | ⟨ho, move, within, r, hs, hw, hr, rfl⟩ := scanAt_eq_ok_iff.1 h
    · exact ⟨[], .done hc, rfl⟩
    · obtain ⟨later, hl, rfl⟩ := ih _ (.onward ho hs) hr
      cases hin : move.inner with
      | none =>
        rw [hin] at hw
        exact ⟨_, .leaf ho hs hin hl, by simp [hw]⟩
      | some inner =>
        rw [hin] at hw
        obtain ⟨ms, his, rfl⟩ := ih _ (.inside ho hs hin) hw
        exact ⟨_, .group ho hs hin his hl, by simp⟩
  · rintro ⟨visits, h, rfl⟩
    induction h with
    | done hc => exact scanAt_eq_ok_iff.2 (.inl ⟨hc, rfl⟩)
    | leaf ho hs hin hr ih =>
      exact scanAt_eq_ok_iff.2 (.inr ⟨ho, _, [], _, hs, by rw [hin], ih, by simp⟩)
    | group ho hs hin hw hr ihw ihr =>
      exact scanAt_eq_ok_iff.2 (.inr ⟨ho, _, _, _, hs, by rwa [hin], ihr, by simp⟩)

lemma Visits.exists_mem (h : s.Visits erase c visits) (hr : s.Reaches erase c d)
    (ho : d.Open) : ∃ move, (d, move) ∈ visits := by
  -- The walk stops at `d`, or it is led on from `c`, into the group there or behind it.
  induction h with
  | done hc =>
    rcases hr.cases_head with rfl | ⟨c', hl, -⟩
    · exact absurd ho hc
    · exact absurd hl.open hc
  | @leaf c move r _ hs hin hre ih =>
    rcases hr.cases_head with rfl | ⟨c', hl, hr⟩
    · exact ⟨move, List.mem_cons_self⟩
    · cases hl with
      | inside _ hs' hin' =>
        rw [ok.inj (hs'.symm.trans hs), hin] at hin'
        cases hin'
      | onward _ hs' =>
        rw [ok.inj (hs'.symm.trans hs)] at hr
        obtain ⟨move', hm⟩ := ih hr
        exact ⟨move', List.mem_cons_of_mem _ hm⟩
  | @group c move inner within r _ hs hin hw hre ihw ihr =>
    rcases hr.cases_head with rfl | ⟨c', hl, hr⟩
    · exact ⟨move, List.mem_cons_self⟩
    · cases hl with
      | inside _ hs' hin' =>
        rw [ok.inj (hs'.symm.trans hs), hin] at hin'
        cases hin'
        obtain ⟨move', hm⟩ := ihw hr
        exact ⟨move', List.mem_cons_of_mem _ (List.mem_append_left _ hm)⟩
      | onward _ hs' =>
        rw [ok.inj (hs'.symm.trans hs)] at hr
        obtain ⟨move', hm⟩ := ihr hr
        exact ⟨move', List.mem_cons_of_mem _ (List.mem_append_right _ hm)⟩

lemma Visits.mem_iff {move : Move} (h : s.Visits erase c visits) :
    (d, move) ∈ visits ↔ s.Reaches erase c d ∧ d.Open ∧ s.stepAt erase d = .ok move := by
  have hv : ∀ {d move}, (d, move) ∈ visits → s.Reaches erase c d ∧ d.Open ∧ s.stepAt erase d = .ok move := by
    intro d move hm
    induction h with
    | done hc => cases hm
    | leaf ho hs hin hre ih =>
      rcases List.mem_cons.1 hm with heq | hm
      · obtain ⟨rfl, rfl⟩ := Prod.mk.inj heq
        exact ⟨.refl _, ho, hs⟩
      · exact (ih hm).imp_left (.head (.onward ho hs))
    | group ho hs hin hw hre ihw ihr =>
      rcases List.mem_cons.1 hm with heq | hm
      · obtain ⟨rfl, rfl⟩ := Prod.mk.inj heq
        exact ⟨.refl _, ho, hs⟩
      · rcases List.mem_append.1 hm with hm | hm
        · exact (ihw hm).imp_left (.head (.inside ho hs hin))
        · exact (ihr hm).imp_left (.head (.onward ho hs))
  refine ⟨hv, fun ⟨hr, ho, hs⟩ => ?_⟩
  obtain ⟨move', hm⟩ := h.exists_mem hr ho
  obtain rfl := ok.inj (hs.symm.trans (hv hm).2.2)
  exact hm

lemma mem_scanAt_iff (h : s.scanAt erase c = .ok edits) {e : Edit} :
    e ∈ edits ↔ ∃ d move, s.Reaches erase c d ∧ d.Open ∧ s.stepAt erase d = .ok move ∧ e ∈ move.edits := by
  obtain ⟨visits, hv, rfl⟩ := scanAt_eq_ok_iff_visits.1 h
  rw [List.mem_flatMap]
  constructor
  · rintro ⟨⟨d, move⟩, hm, he⟩
    obtain ⟨hr, ho, hs⟩ := hv.mem_iff.1 hm
    exact ⟨d, move, hr, ho, hs, he⟩
  · rintro ⟨d, move, hr, ho, hs, he⟩
    exact ⟨(d, move), hv.mem_iff.2 ⟨hr, ho, hs⟩, he⟩

lemma exists_scanAt_iff : (∃ edits, s.scanAt erase c = .ok edits) ↔
    ∀ d, s.Reaches erase c d → d.Open → ∃ move, s.stepAt erase d = .ok move := by
  constructor
  · rintro ⟨edits, h⟩ d hr ho
    obtain ⟨visits, hv, -⟩ := scanAt_eq_ok_iff_visits.1 h
    obtain ⟨move, hm⟩ := hv.exists_mem hr ho
    exact ⟨move, (hv.mem_iff.1 hm).2.2⟩
  · induction c using s.site_induction erase with
    | _ c ih =>
    intro h
    by_cases ho : c.Open
    · obtain ⟨move, hs⟩ := h c (.refl c) ho
      have hl : ∀ d, s.Leads erase c d → ∃ edits, s.scanAt erase d = .ok edits := fun d hle =>
        ih d hle fun d' hr => h d' (.head hle hr)
      obtain ⟨r, hre⟩ := hl _ (.onward ho hs)
      cases hin : move.inner with
      | some inner =>
        obtain ⟨within, hw⟩ := hl _ (.inside ho hs hin)
        exact ⟨_, scanAt_eq_ok_iff.2 (.inr ⟨ho, move, within, r, hs, by rwa [hin], hre, rfl⟩)⟩
      | none =>
        exact ⟨_, scanAt_eq_ok_iff.2 (.inr ⟨ho, move, [], r, hs, by rw [hin], hre, rfl⟩)⟩
    · exact ⟨[], scanAt_eq_ok_iff.2 (.inl ⟨ho, rfl⟩)⟩

def start (s : Stream) : Site := ⟨.block, {}, s.size, 0⟩

end Stream

lemma typeEdits_eq_ok_iff {src : String} : typeEdits src = .ok edits ↔
    ∃ s, Stream.read src = .ok s ∧ s.scanAt (eraseExpression src.length) s.start = .ok edits :=
  bind_eq_ok

lemma stripTypes_eq_ok_iff {grammar : Grammar} {src out : String} : stripTypes grammar src = .ok out ↔
    grammar.typed src ∧ (∃ edits, typeEdits src = .ok edits ∧ applyEdits src edits = out) ∧ grammar.plain out := by
  have he : ∀ out, eraseTypes src = .ok out ↔ ∃ edits, typeEdits src = .ok edits ∧ applyEdits src edits = out := by
    intro out
    rw [eraseTypes, bind_eq_ok]
    exact exists_congr fun edits => and_congr_right fun _ => ⟨fun h => ok.inj h, fun h => congrArg Except.ok h⟩
  rw [← he]
  unfold stripTypes
  by_cases ht : grammar.typed src
  · simp only [ht, if_true, true_and]
    rw [bind_eq_ok]
    constructor
    · rintro ⟨out', he, h⟩
      split at h
      · rename_i hp
        cases h
        exact ⟨he, hp⟩
      · cases h
    · rintro ⟨he, hp⟩
      exact ⟨out, he, by rw [if_pos hp]; rfl⟩
  · rw [if_neg ht]
    exact iff_of_false (fun h => nomatch h) fun h => ht h.1

end CustomElement.Script
