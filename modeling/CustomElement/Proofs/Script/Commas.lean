import CustomElement.Proofs.Script.Relaying

/-!
# Trailing commas in place

`Settled` says that nodes have all the trailing commas they call for. Nodes that were given their commas are settled
(`settled_addCommas`).
-/

namespace CustomElement.Script

open List Text

variable {gap ns : List Node} {t : Token}

/-- How many conditional expressions wait for their colon behind the token. -/
def Token.pending (ternary : Nat) (t : Token) : Nat :=
  if t.isPunct "?" then ternary + 1 else if t.isPunct ":" then ternary - 1 else if t.isPunct ";" then 0 else ternary

def Token.seen (enclosure : Enclosure) (ternary : Nat) (before : Before) (t : Token) : Before :=
  if t.isTrivia then before
  else if t.isPunct ":" then { token := some t, colonValue := 0 < ternary || enclosure == .object }
  else { before with token := some t }

def pending (ternary : Nat) : List Node → Nat
  | [] => ternary
  | .leaf t :: ns => pending (t.pending ternary) ns
  | .group .. :: ns => pending ternary ns

lemma pending_append (k : Nat) (as bs : List Node) : pending k (as ++ bs) = pending (pending k as) bs := by
  induction as generalizing k with
  | nil => rfl
  | cons n as ih =>
    cases n with
    | leaf t => exact ih _
    | group o ms c => exact ih _

lemma isPunct_of_isTrivia (h : t.isTrivia) (x : String) : t.isPunct x = false := by
  rw [Token.isPunct]
  cases hk : t.kind with
  | punct => simp [Token.isTrivia, hk] at h
  | _ => rfl

section Walk

variable (e : Enclosure) (k : Nat) (b : Before)

@[simp] lemma addCommas_nil : addCommas e k b [] = ([], b) := by
  rw [addCommas]

lemma addCommas_leaf (t : Token) (ns : List Node) : addCommas e k b (.leaf t :: ns) =
      (.leaf t :: (addCommas e (t.pending k) (t.seen e k b) ns).1, (addCommas e (t.pending k) (t.seen e k b) ns).2) := by
  have hst : (if t.isTrivia then (k, b)
      else if t.isPunct "?" then (k + 1, { b with token := some t })
      else if t.isPunct ":" then (k - 1, { token := some t, colonValue := 0 < k || e == .object })
      else if t.isPunct ";" then (0, { b with token := some t })
      else (k, { b with token := some t })) = (t.pending k, t.seen e k b) := by
    unfold Token.pending Token.seen
    by_cases ht : t.isTrivia
    · simp [ht, isPunct_of_isTrivia ht]
    · by_cases hm : t.isPunct "?"
      · have hc : t.isPunct ":" = false := by
          rw [isPunct_iff] at hm
          simp [Token.isPunct, hm]
        simp [ht, hm, hc]
      · by_cases hc : t.isPunct ":"
        · simp [ht, hm, hc]
        · by_cases hs : t.isPunct ";" = true <;> simp [ht, hm, hc, hs]
  rw [addCommas, hst]

def readAfter (ns : List Node) : Before := (addCommas e k b ns).2

lemma readAfter_cons_leaf (t : Token) (ns : List Node) :
    readAfter e k b (.leaf t :: ns) = readAfter e (t.pending k) (t.seen e k b) ns := by
  rw [readAfter, addCommas_leaf]
  rfl

section

variable (opener : Token) (inside : List Node)

def innerWith : List Node :=
  (addCommas (b.enclosure opener) 0 { b with token := some opener } inside).1

def insideWith : List Node :=
  if (b.enclosure opener).isLiteral then trailingComma (innerWith b opener inside) else innerWith b opener inside

def readBehind (closer : Token) : Before :=
  { readAfter (b.enclosure opener) 0 { b with token := some opener } inside with token := some closer }

end

lemma addCommas_group (o c : Token) (ms ns : List Node) : addCommas e k b (.group o ms c :: ns) =
      (.group o (insideWith b o ms) c :: (addCommas e k (readBehind b o ms c) ns).1,
        readAfter e k (readBehind b o ms c) ns) := by
  rw [addCommas]
  rfl

lemma readAfter_cons_group (o c : Token) (ms ns : List Node) :
    readAfter e k b (.group o ms c :: ns) = readAfter e k (readBehind b o ms c) ns := by
  rw [readAfter, addCommas_group]

@[simp] lemma length_addCommas (ns : List Node) : (addCommas e k b ns).1.length = ns.length := by
  induction ns generalizing k b with
  | nil => simp
  | cons n ns ih =>
    cases n with
    | leaf t => rw [addCommas_leaf, length_cons, ih, length_cons]
    | group o ms c => rw [addCommas_group, length_cons, ih, length_cons]

lemma addCommas_append (as bs : List Node) : addCommas e k b (as ++ bs) =
      ((addCommas e k b as).1 ++ (addCommas e (pending k as) (readAfter e k b as) bs).1,
        readAfter e (pending k as) (readAfter e k b as) bs) := by
  induction as generalizing k b with
  | nil => simp [readAfter, pending]
  | cons n as ih =>
    cases n with
    | leaf t => rw [cons_append, addCommas_leaf, ih, readAfter_cons_leaf, addCommas_leaf, pending, cons_append]
    | group o ms c =>
      have hr : readAfter e k (readBehind b o ms c) (as ++ bs) = _ := congrArg Prod.snd (ih k (readBehind b o ms c))
      rw [cons_append, addCommas_group, ih, hr, readAfter_cons_group, addCommas_group, pending, cons_append]

/-- The nodes have all the trailing commas they call for. -/
def Settled (ns : List Node) : Prop := (addCommas e k b ns).1 = ns

end Walk

section Settled

variable {e : Enclosure} {k : Nat} {b : Before}

lemma readAfter_append (as bs : List Node) :
    readAfter e k b (as ++ bs) = readAfter e (pending k as) (readAfter e k b as) bs := by
  rw [readAfter, addCommas_append]

lemma settled_append {as bs : List Node} :
    Settled e k b (as ++ bs) ↔ Settled e k b as ∧ Settled e (pending k as) (readAfter e k b as) bs := by
  rw [Settled, addCommas_append]
  exact ⟨fun h => append_inj h (length_addCommas e k b as), fun h => by rw [h.1, h.2]⟩

lemma settled_leaf (t : Token) : Settled e k b [.leaf t] := by
  rw [Settled, addCommas_leaf, addCommas_nil]

lemma readAfter_leaf (t : Token) : readAfter e k b [.leaf t] = t.seen e k b := by
  rw [readAfter, addCommas_leaf, addCommas_nil]

lemma settled_cons_leaf : Settled e k b (.leaf t :: ns) ↔ Settled e (t.pending k) (t.seen e k b) ns := by
  have ha : Settled e k b ([.leaf t] ++ ns) ↔ _ := settled_append
  rw [readAfter_leaf] at ha
  exact ha.trans (and_iff_right (settled_leaf t))

def wantsComma (inside : List Node) : Bool :=
  let gap := (inside.reverse.takeWhile Node.isTrivia).reverse
  let elements := (inside.reverse.dropWhile Node.isTrivia).reverse
  match elements.getLast? with
  | none => false
  | some last =>
    let spread := ((lastElement elements).find? fun n => !n.isTrivia).any fun n => n.first.isPunct "..."
    !(last.last.isPunct "," || !hasNewline gap || spread)

lemma trailingComma_of_wantsComma {ms : List Node} (h : wantsComma ms) : ∃ elements gap stop, ms = elements ++ gap ∧
      trailingComma ms = elements ++ .leaf ⟨.punct, ",", stop⟩ :: gap ∧ (∀ n ∈ gap, n.isTrivia) ∧
      ∃ fr last, elements = fr ++ [last] ∧ last.isTrivia = false ∧ last.last.isPunct "," = false := by
  unfold wantsComma at h
  unfold trailingComma
  dsimp only at h ⊢
  have hs : ms = (ms.reverse.dropWhile Node.isTrivia).reverse ++ (ms.reverse.takeWhile Node.isTrivia).reverse := by
    rw [← reverse_append, takeWhile_append_dropWhile, reverse_reverse]
  cases hl : ((ms.reverse.dropWhile Node.isTrivia).reverse).getLast? with
  | none => simp [hl] at h
  | some last =>
    rw [hl] at h
    simp only [not_eq_true'] at h
    refine ⟨_, _, last.last.stop, hs, ?_, ?_, ?_⟩
    · simp only [h]
      rfl
    · intro n hn
      exact mem_takeWhile_imp (mem_reverse.1 hn)
    · obtain ⟨fr, hfr⟩ := getLast?_eq_some_iff.1 hl
      rw [getLast?_reverse] at hl
      have hh := head?_dropWhile_any Node.isTrivia ms.reverse
      rw [hl] at hh
      simp only [or_eq_false_iff] at h
      exact ⟨fr, last, hfr, by simpa using hh, h.1.1⟩

lemma trailingComma_of_not_wantsComma {inside : List Node} (h : wantsComma inside = false) :
    trailingComma inside = inside := by
  unfold wantsComma at h
  unfold trailingComma
  dsimp only at h ⊢
  cases hl : ((inside.reverse.dropWhile Node.isTrivia).reverse).getLast? with
  | none => rfl
  | some last =>
    rw [hl] at h
    simp only [Bool.not_eq_false'] at h
    simp only [h]
    rfl

def endsLine (ns : List Node) : Bool := hasNewline (ns.reverse.takeWhile Node.isTrivia).reverse

def outlines (ns : List Node) : List (Token × Option Token) := (ns.filter fun n => !n.isTrivia).map Node.outline

@[simp] lemma outlines_append (as bs : List Node) : outlines (as ++ bs) = outlines as ++ outlines bs := by
  rw [outlines, filter_append, map_append]
  rfl

lemma outlines_trivia (h : ∀ n ∈ gap, n.isTrivia) : outlines gap = [] := by
  rw [outlines, filter_eq_nil_iff.2 (by simpa using h), map_nil]

/-- The last element of such code takes a comma: it has none and is no spread. -/
def takesComma (os : List (Token × Option Token)) : Bool :=
  os.getLast?.any (fun o => !(o.2.getD o.1).isPunct ",") &&
    !(os.reverse.takeWhile fun o => !o.1.isPunct ",").getLast?.any fun o => o.1.isPunct "..."

lemma filter_takeWhile {α : Type*} {p q : α → Bool} (h : ∀ a, p a = false → q a) (as : List α) :
    (as.takeWhile q).filter p = (as.filter p).takeWhile q := by
  induction as with
  | nil => rfl
  | cons a as ih =>
    cases hp : p a with
    | false => rw [takeWhile_cons_of_pos (h a hp), filter_cons_of_neg (by simp [hp]), filter_cons_of_neg (by simp [hp]), ih]
    | true =>
      cases hq : q a with
      | false => rw [takeWhile_cons_of_neg (by simp [hq]), filter_cons_of_pos hp,
          takeWhile_cons_of_neg (by simp [hq]), filter_nil]
      | true => rw [takeWhile_cons_of_pos hq, filter_cons_of_pos hp, filter_cons_of_pos hp, takeWhile_cons_of_pos hq, ih]

lemma Node.first_eq (n : Node) : n.first = n.outline.1 := by cases n <;> rfl

lemma Node.last_eq (n : Node) : n.last = n.outline.2.getD n.outline.1 := by cases n <;> rfl

lemma isPunct_first_of_isTrivia {n : Node} (h : n.isTrivia) (x : String) : n.first.isPunct x = false := by
  cases n with
  | leaf t => exact isPunct_of_isTrivia h x
  | group o ms c => cases h

lemma wantsComma_eq (ms : List Node) : wantsComma ms = (endsLine ms && takesComma (outlines ms)) := by
  have hco : (ms.reverse.dropWhile Node.isTrivia).filter (fun n => !n.isTrivia) =
      ms.reverse.filter fun n => !n.isTrivia := by
    have hg : (ms.reverse.takeWhile Node.isTrivia).filter (fun n => !n.isTrivia) = [] := by
      refine filter_eq_nil_iff.2 fun n hn => ?_
      simpa using mem_takeWhile_imp hn
    conv_rhs => rw [← takeWhile_append_dropWhile (p := Node.isTrivia) (l := ms.reverse), filter_append, hg, nil_append]
  have hl : ((ms.reverse.dropWhile Node.isTrivia).reverse).getLast? = (ms.filter fun n => !n.isTrivia).getLast? := by
    rw [getLast?_reverse, ← head?_reverse, ← filter_reverse, head?_filter, find?_eq_head?_dropWhile_not]
    simp
  have hs : ((lastElement (ms.reverse.dropWhile Node.isTrivia).reverse).find? fun n => !n.isTrivia) =
      ((ms.filter fun n => !n.isTrivia).reverse.takeWhile fun n => !n.first.isPunct ",").getLast? := by
    have hc : ∀ n : Node, (!n.isTrivia) = false → (!n.first.isPunct ",") := fun n hn => by
      rw [isPunct_first_of_isTrivia (by simpa using hn)]
      rfl
    rw [lastElement, reverse_reverse, ← head?_filter, filter_reverse, head?_reverse,
      filter_takeWhile hc, hco, filter_reverse]
  rw [wantsComma]
  simp only [hl, hs]
  rw [takesComma, outlines, getLast?_map, ← map_reverse, takeWhile_map, getLast?_map, Option.any_map, Option.any_map]
  simp only [comp_def, ← Node.last_eq]
  simp only [← Node.first_eq]
  cases (ms.filter fun n => !n.isTrivia).getLast? with
  | none => simp
  | some last =>
    rw [← endsLine]
    simp only [any_some]
    cases last.last.isPunct "," <;> cases endsLine ms <;> simp

@[simp] lemma endsLine_concat (ns : List Node) (n : Node) :
    endsLine (ns ++ [n]) = (n.isTrivia && (hasNewline [n] || endsLine ns)) := by
  cases hn : n.isTrivia with
  | false => simp [endsLine, hasNewline, hn]
  | true => simp [endsLine, hasNewline, hn, Bool.or_comm]

lemma wantsComma_addCommas (e : Enclosure) (k : Nat) (b : Before) (ns : List Node) :
    wantsComma (addCommas e k b ns).1 = wantsComma ns := by
  have hs : outlines (addCommas e k b ns).1 = outlines ns ∧ endsLine (addCommas e k b ns).1 = endsLine ns := by
    induction ns using reverseRecOn with
    | nil => simp
    | append_singleton ns n ih =>
      rw [addCommas_append, outlines_append, outlines_append, ih.1]
      cases n with
      | leaf t => simp [addCommas_leaf, ih.2]
      | group o ms c =>
        rw [addCommas_group, addCommas_nil, endsLine_concat, endsLine_concat]
        exact ⟨rfl, rfl⟩
  rw [wantsComma_eq, wantsComma_eq, hs.1, hs.2]

lemma insideWith_cases (b : Before) (o : Token) (inside : List Node) : insideWith b o inside = innerWith b o inside ∧
        ((b.enclosure o).isLiteral → wantsComma inside = false) ∨
      ((b.enclosure o).isLiteral ∧ wantsComma inside) ∧ ∃ elements gap stop, innerWith b o inside = elements ++ gap ∧
        insideWith b o inside = elements ++ .leaf ⟨.punct, ",", stop⟩ :: gap ∧ (∀ n ∈ gap, n.isTrivia) ∧
        ∃ fr last, elements = fr ++ [last] ∧ last.isTrivia = false ∧ last.last.isPunct "," = false := by
  have hw : wantsComma (innerWith b o inside) = wantsComma inside := wantsComma_addCommas _ _ _ inside
  rw [insideWith]
  split
  · rename_i hl
    cases hc : wantsComma inside with
    | false => exact .inl ⟨trailingComma_of_not_wantsComma (hw.trans hc), fun _ => rfl⟩
    | true => exact .inr ⟨⟨hl, rfl⟩, trailingComma_of_wantsComma (hw.trans hc)⟩
  · rename_i hl
    exact .inl ⟨rfl, fun h => absurd h hl⟩

lemma settled_cons_group {o c : Token} {ms : List Node} : Settled e k b (.group o ms c :: ns) ↔
      (Settled (b.enclosure o) 0 { b with token := some o } ms ∧ ((b.enclosure o).isLiteral → wantsComma ms = false)) ∧
      Settled e k (readBehind b o ms c) ns := by
  have hin : insideWith b o ms = ms ↔ Settled (b.enclosure o) 0 { b with token := some o } ms ∧
        ((b.enclosure o).isLiteral → wantsComma ms = false) := by
    rcases insideWith_cases b o ms with ⟨heq, hn⟩ | ⟨⟨hli, hw⟩, elements, gap, stop, hie, hc, -⟩
    · rw [heq]
      exact (and_iff_left hn).symm
    · refine iff_of_false (fun h => ?_) fun h => ?_
      · -- With one more node the inside would not be the same.
        have hl := congrArg length hie
        have hlo := congrArg length (hc.symm.trans h)
        rw [innerWith, length_addCommas] at hl
        simp only [length_append, length_cons] at hl hlo
        omega
      · rw [h.2 hli] at hw
        cases hw
  rw [Settled, addCommas_group, ← hin]
  constructor
  · intro h
    obtain ⟨hfi, hr⟩ := cons.inj h
    exact ⟨(Node.group.inj hfi).2.1, hr⟩
  · rintro ⟨hfi, hr⟩
    rw [hfi, hr]

lemma seen_of_isTrivia (h : t.isTrivia) : t.seen e k b = b := by
  rw [Token.seen, if_pos h]

lemma pending_of_isTrivia (h : t.isTrivia) : t.pending k = k := by
  simp [Token.pending, isPunct_of_isTrivia h]

lemma settled_trivia (h : ∀ n ∈ gap, n.isTrivia) : Settled e k b gap ∧ readAfter e k b gap = b ∧ pending k gap = k := by
  induction gap with
  | nil => exact ⟨by rw [Settled, addCommas_nil], by rw [readAfter, addCommas_nil], rfl⟩
  | cons n gap ih =>
    obtain ⟨hn, hg⟩ := forall_mem_cons.1 h
    cases n with
    | group o ms c => cases hn
    | leaf t =>
      rw [settled_cons_leaf, readAfter_cons_leaf, pending, seen_of_isTrivia hn, pending_of_isTrivia hn]
      exact ih hg

lemma settled_comma (stop : Nat) {elements : List Node} (hg : ∀ n ∈ gap, n.isTrivia) (h : Settled e k b (elements ++ gap)) :
    Settled e k b (elements ++ .leaf ⟨.punct, ",", stop⟩ :: gap) ∧
      (readAfter e k b (elements ++ .leaf ⟨.punct, ",", stop⟩ :: gap)).colonValue =
        (readAfter e k b (elements ++ gap)).colonValue := by
  obtain ⟨hg₁, hg₂, -⟩ := settled_trivia (e := e) (k := pending k elements)
    (b := Token.seen e (pending k elements) (readAfter e k b elements) ⟨.punct, ",", stop⟩) hg
  obtain ⟨-, hg₃, -⟩ := settled_trivia (e := e) (k := pending k elements) (b := readAfter e k b elements) hg
  have hs : Token.pending (pending k elements) ⟨.punct, ",", stop⟩ = pending k elements := rfl
  rw [readAfter_append, readAfter_append, readAfter_cons_leaf, hg₃, hs]
  exact ⟨settled_append.2 ⟨(settled_append.1 h).1, settled_cons_leaf.2 hg₁⟩, by rw [hg₂]; rfl⟩

lemma wantsComma_comma (stop : Nat) (elements : List Node) (hg : ∀ n ∈ gap, n.isTrivia) :
    wantsComma (elements ++ .leaf ⟨.punct, ",", stop⟩ :: gap) = false := by
  have hc : outlines (.leaf ⟨.punct, ",", stop⟩ :: gap) = [(⟨.punct, ",", stop⟩, none)] := by
    rw [← singleton_append, outlines_append, outlines_trivia hg]
    rfl
  rw [wantsComma_eq, outlines_append, hc]
  simp [takesComma, Token.isPunct]

/-- **Commas are given once.** Nodes that were given their commas call for no other. -/
lemma settled_addCommas (e : Enclosure) (k : Nat) (b : Before) (ns : List Node) :
    Settled e k b (addCommas e k b ns).1 ∧ readAfter e k b (addCommas e k b ns).1 = readAfter e k b ns := by
  induction ns using Node.forest_induction generalizing e k b with
  | nil => simp [Settled]
  | leaf t ns ih =>
    rw [addCommas_leaf, settled_cons_leaf, readAfter_cons_leaf, readAfter_cons_leaf]
    exact ih e (t.pending k) (t.seen e k b)
  | group o ms closer ns ihInside ih =>
    obtain ⟨hin, ha⟩ := ihInside (b.enclosure o) 0 { b with token := some o }
    have hw : (Settled (b.enclosure o) 0 { b with token := some o } (insideWith b o ms) ∧
        ((b.enclosure o).isLiteral → wantsComma (insideWith b o ms) = false)) ∧
        readBehind b o (insideWith b o ms) closer = readBehind b o ms closer := by
      rcases insideWith_cases b o ms with ⟨heq, hn⟩ | ⟨-, elements, gap, stop, hie, hc, hg, -⟩
      · rw [heq, readBehind, innerWith, ha, wantsComma_addCommas]
        exact ⟨⟨hin, hn⟩, rfl⟩
      · rw [← innerWith, hie] at hin ha
        obtain ⟨hs, hco⟩ := settled_comma stop hg hin
        rw [hc, readBehind, readBehind, hco, ha]
        exact ⟨⟨hs, fun _ => wantsComma_comma stop elements hg⟩, rfl⟩
    obtain ⟨hr, he⟩ := ih e k (readBehind b o ms closer)
    rw [addCommas_group, settled_cons_group, readAfter_cons_group, readAfter_cons_group, hw.2]
    exact ⟨⟨hw.1, hr⟩, he⟩

end Settled

def Before.map (f : Token → Token) (b : Before) : Before := { b with token := b.token.map f }

namespace Gentle

variable {f : Token → Token} (hf : Gentle f)

include hf

lemma enclosure (b : Before) {opener : Token} (ho : opener.isOpener) :
    (b.map f).enclosure (f opener) = b.enclosure opener := by
  have hk : opener.kind = .punct := by
    simp only [Token.isOpener, and_eq_true, beq_iff_eq] at ho
    exact ho.1
  have hbr : (b.map f).brace = b.brace := by
    obtain ⟨token, colonValue⟩ := b
    cases token with
    | none => rfl
    | some t => exact hf.congr (fun kind s => Before.brace ⟨some ⟨kind, s, 0⟩, colonValue⟩) (fun _ _ => rfl) t
  have hb : (b.map f).bracket = b.bracket := by
    obtain ⟨token, colonValue⟩ := b
    cases token with
    | none => rfl
    | some t => exact hf.congr (fun kind s => Before.bracket ⟨some ⟨kind, s, 0⟩, colonValue⟩) (fun _ _ => rfl) t
  rw [Before.enclosure, hf.text opener (by simp [hk]), hbr, hb]
  rfl

lemma seen (e : Enclosure) (k : Nat) (b : Before) (t : Token) : (f t).seen e k (b.map f) = (t.seen e k b).map f := by
  rw [Token.seen, Token.seen, hf.isTrivia, hf.isPunct]
  split
  · rfl
  · split <;> rfl

lemma tokenPending (k : Nat) (t : Token) : (f t).pending k = t.pending k := by
  simp only [Token.pending, hf.isPunct]

lemma wantsComma (inside : List Node) : Script.wantsComma (inside.map (Node.map f)) = Script.wantsComma inside := by
  have ht : Node.isTrivia ∘ Node.map f = Node.isTrivia := funext hf.nodeIsTrivia
  have hl : endsLine (inside.map (Node.map f)) = endsLine inside := by
    rw [endsLine, endsLine, ← map_reverse, takeWhile_map, ht, ← map_reverse, Script.hasNewline,
      tokensOf_map, any_map, show Token.hasNewline ∘ f = Token.hasNewline from funext hf.hasNewline]
    rfl
  have hc : outlines (inside.map (Node.map f)) = (outlines inside).map (Prod.map f (Option.map f)) := by
    rw [outlines, outlines, filter_map, map_map, map_map]
    simp only [comp_def, hf.nodeIsTrivia]
    refine map_congr_left fun n _ => ?_
    cases n <;> simp [Node.outline]
  rw [wantsComma_eq, wantsComma_eq, hl, hc, takesComma, takesComma, ← map_reverse, takeWhile_map,
    getLast?_map, getLast?_map, Option.any_map, Option.any_map]
  simp only [comp_def, Prod.map, Option.getD_map, hf.isPunct]

lemma pending (k : Nat) (ns : List Node) : Script.pending k (ns.map (Node.map f)) = Script.pending k ns := by
  induction ns generalizing k with
  | nil => rfl
  | cons n ns ih =>
    cases n with
    | leaf t => rw [map_cons, Node.map_leaf, Script.pending, Script.pending, hf.tokenPending, ih]
    | group o ms c => rw [map_cons, map_group, Script.pending, Script.pending, ih]

lemma settled (e : Enclosure) (k : Nat) (b : Before) (ns : List Node) (hns : ∀ n ∈ ns, n.Balanced) :
    (Settled e k (b.map f) (ns.map (Node.map f)) ↔ Settled e k b ns) ∧
      readAfter e k (b.map f) (ns.map (Node.map f)) = (readAfter e k b ns).map f := by
  induction ns using Node.forest_induction generalizing e k b with
  | nil => simp [Settled, readAfter]
  | leaf t ns ih =>
    rw [map_cons, Node.map_leaf, settled_cons_leaf, settled_cons_leaf, readAfter_cons_leaf, readAfter_cons_leaf,
      hf.tokenPending, hf.seen]
    exact ih e (t.pending k) (t.seen e k b) fun n hn => hns n (mem_cons_of_mem _ hn)
  | group o ms c ns ihInside ih =>
    cases hns _ mem_cons_self with
    | group ho hc hin =>
      obtain ⟨hif, ha⟩ := ihInside (b.enclosure o) 0 { b with token := some o } hin
      have hb : readBehind (b.map f) (f o) (ms.map (Node.map f)) (f c) = (readBehind b o ms c).map f := by
        unfold readBehind
        rw [hf.enclosure b ho]
        exact congrArg (fun a : Before => { a with token := some (f c) }) ha
      obtain ⟨hr, he⟩ := ih e k (readBehind b o ms c) fun n hn => hns n (mem_cons_of_mem _ hn)
      rw [map_cons, map_group, settled_cons_group, settled_cons_group, readAfter_cons_group,
        readAfter_cons_group, hb, hr, hf.enclosure b ho, hf.wantsComma]
      exact ⟨and_congr_left fun _ => and_congr_left fun _ => hif, he⟩

end Gentle

lemma Settled.congr {f : Token → Token} (hf : Gentle f) {e : Enclosure} {k : Nat} {b b' : Before} {ns' : List Node}
    (hn : ∀ n ∈ ns, n.Balanced) (hn' : ∀ n ∈ ns', n.Balanced) (hb : b'.map f = b.map f)
    (hm : ns'.map (Node.map f) = ns.map (Node.map f)) (h : Settled e k b ns) :
    Settled e k b' ns' ∧ (readAfter e k b' ns').map f = (readAfter e k b ns).map f ∧ pending k ns' = pending k ns := by
  obtain ⟨hif, ha⟩ := hf.settled e k b ns hn
  obtain ⟨hif', ha'⟩ := hf.settled e k b' ns' hn'
  rw [hb, hm] at hif' ha'
  refine ⟨hif'.1 (hif.2 h), by rw [← ha', ha], ?_⟩
  rw [← hf.pending, hm, hf.pending]

end CustomElement.Script
