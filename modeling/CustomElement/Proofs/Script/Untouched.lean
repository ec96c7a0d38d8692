import CustomElement.Proofs.Script.Taken

/-!
# Scripts that erasure leaves alone

A script without opening angles comes back as it is if the walk finds no types in it (`Stream.TypeFree`), and where
nothing has to be put in only then (`stripTypes_eq_self_iff`).
-/

namespace CustomElement.Script

open List Text

section Cuts

variable {source : String} {s : Stream} {tokens : List Token} {edits : List Edit}

lemma applyEdits_nil (source : String) : applyEdits source [] = source := by
  rw [applyEdits, mergeSort_nil, applyEditsFrom, ofList_toList]

lemma length_uncovered_lt {cs : List Char} {e : Edit} (he : e ∈ edits) (hl : e.start < e.stop)
    (hf : e.Fits cs) : ((uncovered edits 0 cs).map Prod.snd).length < cs.length := by
  obtain ⟨a, b, c, rfl, ha, hb⟩ := hf.1.exists_append hf.2 hl.le
  cases b with
  | nil =>
    rw [byteLength_nil] at hb
    omega
  | cons d b =>
    have hm : (e.start, d) ∈ located 0 (a ++ (d :: b ++ c)) := by
      rw [located_append, zero_add, ha]
      exact mem_append_right _ mem_cons_self
    have hc : edits.any fun e' => e'.takes e.start := any_eq_true.2 ⟨e, he, by simp [Edit.takes, hl]⟩
    calc _ = (uncovered edits 0 (a ++ (d :: b ++ c))).length := length_map _
      _ < (located 0 (a ++ (d :: b ++ c))).length := length_filter_lt_length_iff_exists.2 ⟨_, hm, by simp [hc]⟩
      _ = _ := by rw [← length_map, map_snd_located]

end Cuts

/-- The walk finds no types wherever it comes. -/
def Stream.TypeFree (s : Stream) : Prop :=
  ∀ c, s.Reaches (eraseExpression s.source.length) s.start c → c.Open → s.takes (eraseExpression s.source.length) c = false

section TypeFree

variable {source : String} {s : Stream} (hs : Stream.read source = .ok s) (hangle : ∀ j, s.is j "<" = false)

include hs hangle

lemma typeEdits_eq_nil_iff : typeEdits source = .ok [] ↔ s.TypeFree := by
  obtain ⟨-, -, -, -, rfl, -⟩ := Stream.exists_of_read hs
  rw [typeEdits_eq_ok_iff]
  constructor
  · rintro ⟨s', hs', hsc⟩ c hr ho
    obtain rfl := ok.inj (hs.symm.trans hs')
    obtain ⟨move, hst⟩ := Stream.exists_scanAt_iff.1 ⟨[], hsc⟩ c hr ho
    have hq : move.edits = [] := eq_nil_iff_forall_not_mem.2 fun e he =>
      not_mem_nil ((Stream.mem_scanAt_iff hsc).2 ⟨c, move, hr, ho, hst, he⟩)
    have hse := hr.settles hs hangle ho
    rw [hst] at hse
    generalize s.takes _ c = taken at hse ⊢
    cases hse with
    | quiet h => rfl
    | edits h => exact absurd hq h
  · intro hf
    have hq : ∀ c, s.Reaches (eraseExpression s.source.length) s.start c → c.Open →
        ∃ move, s.stepAt (eraseExpression s.source.length) c = .ok move ∧ move.edits = [] := by
      intro c hr ho
      have hse := hr.settles hs hangle ho
      rw [hf c hr ho] at hse
      generalize s.stepAt _ c = decision at hse ⊢
      cases hse with
      | quiet h => exact ⟨_, rfl, h⟩
    obtain ⟨edits, hsc⟩ := Stream.exists_scanAt_iff.2 fun c hr ho =>
      (hq c hr ho).imp fun move hm => hm.1
    obtain rfl : edits = [] := eq_nil_iff_forall_not_mem.2 fun e he => by
      obtain ⟨c, move, hr, ho, hst, he⟩ := (Stream.mem_scanAt_iff hsc).1 he
      obtain ⟨move', hst', hn⟩ := hq c hr ho
      obtain rfl := ok.inj (hst.symm.trans hst')
      simp [hn] at he
    exact ⟨s, hs, hsc⟩

end TypeFree

/-- **Which scripts come back as they are.** A script without opening angles that the grammar accepts with and without types
is not changed if the walk finds no types in it; and where nothing has to be put in, only then. -/
theorem stripTypes_eq_self_iff {grammar : Grammar} {source : String} {s : Stream} (htyped : grammar.typed source = true)
    (hplain : grammar.plain source = true) (hs : Stream.read source = .ok s) (hangle : ∀ j < s.size, s.is j "<" = false) :
    (s.TypeFree → stripTypes grammar source = .ok source) ∧
      (s.onlyRemoves = true → (stripTypes grammar source = .ok source ↔ s.TypeFree)) := by
  have hangle : ∀ j, s.is j "<" = false := fun j => eq_false_iff.2 fun h => by
    simp [hangle j (Stream.lt_size_of_is h (by decide))] at h
  have hfree : s.TypeFree → stripTypes grammar source = .ok source := fun h =>
    stripTypes_eq_ok_iff.2 ⟨htyped, ⟨[], (typeEdits_eq_nil_iff hs hangle).2 h, applyEdits_nil source⟩, hplain⟩
  refine ⟨hfree, fun honly => ⟨fun h => ?_, hfree⟩⟩
  obtain ⟨-, ⟨edits, hedits, hout⟩, -⟩ := stripTypes_eq_ok_iff.1 h
  obtain ⟨tokens, -, htokens, -⟩ := Stream.exists_of_read hs
  have hcuts := (applyEdits_of_onlyRemoves hs honly htokens hedits).1
  have hkept := applyEdits_removals (fun e he => (hcuts e he).text) fun e he => (hcuts e he).fits hs
  cases edits with
  | nil => exact (typeEdits_eq_nil_iff hs hangle).1 hedits
  | cons e edits =>
    -- The first cut takes out a character, so that the result is shorter than the script.
    have hcut := hcuts e List.mem_cons_self
    have hlt := length_uncovered_lt (List.mem_cons_self (l := edits)) hcut.lt (hcut.fits hs)
    rw [← hkept, hout] at hlt
    exact absurd hlt (Nat.lt_irrefl _)

/-- A conditional is kept outside of classes. In a class its question mark goes with the rest behind the colon, and what
is left is a call. -/
theorem stripTypes_eq_self_iff_conditional :
    (∃ s, Stream.read "a?(b):c" = .ok s ∧ (∀ j < s.size, s.is j "<" = false) ∧ s.onlyRemoves = true ∧ s.TypeFree) ∧
      ∃ s, Stream.read "class A\x7bx=a?(b):c\x7d" = .ok s ∧ (∀ j < s.size, s.is j "<" = false) ∧
        s.onlyRemoves = true ∧
        stripTypes ⟨fun _ => true, fun _ => true⟩ "class A\x7bx=a?(b):c\x7d" =
          .ok "class A\x7bx=a(b)\x7d" ∧ ¬ s.TypeFree := by
  have hkept : ∃ s, Stream.read "a?(b):c" = .ok s ∧ (∀ j < s.size, s.is j "<" = false) ∧ s.onlyRemoves = true :=
    ⟨_, by cbv, by decide, by cbv⟩
  have hnone : typeEdits "a?(b):c" = .ok [] := by decide +kernel
  have hlost : ∃ s, Stream.read "class A\x7bx=a?(b):c\x7d" = .ok s ∧ (∀ j < s.size, s.is j "<" = false) ∧
      s.onlyRemoves = true := ⟨_, by cbv, by decide, by cbv⟩
  have hcuts : typeEdits "class A\x7bx=a?(b):c\x7d" = .ok [⟨11, 12, ""⟩, ⟨15, 17, ""⟩] := by decide +kernel
  constructor
  · obtain ⟨s, hs, hangle, honly⟩ := hkept
    have hself : stripTypes ⟨fun _ => true, fun _ => true⟩ "a?(b):c" = .ok "a?(b):c" :=
      stripTypes_eq_ok_iff.2 ⟨rfl, ⟨[], hnone, applyEdits_nil _⟩, rfl⟩
    exact ⟨s, hs, hangle, honly, ((stripTypes_eq_self_iff rfl rfl hs hangle).2 honly).1 hself⟩
  · obtain ⟨s, hs, hangle, honly⟩ := hlost
    have hresult : stripTypes ⟨fun _ => true, fun _ => true⟩ "class A\x7bx=a?(b):c\x7d" =
        .ok "class A\x7bx=a(b)\x7d" := stripTypes_eq_ok_iff.2 ⟨rfl, ⟨_, hcuts, by cbv⟩, rfl⟩
    refine ⟨s, hs, hangle, honly, hresult, fun hfree => ?_⟩
    have hself : stripTypes ⟨fun _ => true, fun _ => true⟩ "class A\x7bx=a?(b):c\x7d" =
        .ok "class A\x7bx=a?(b):c\x7d" := (stripTypes_eq_self_iff rfl rfl hs hangle).1 hfree
    exact absurd (ok.inj (hresult.symm.trans hself)) (by decide)

end CustomElement.Script
