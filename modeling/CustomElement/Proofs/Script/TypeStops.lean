import CustomElement.Proofs.Outcome
import CustomElement.Script.Erasure.TypeExtent

/-!
# Where a type stops

The functions that skip a type give a position with a proof that it lies ahead. Here are the positions alone, and
equations for them without the proofs (`typeStop_eq`, `tailStop_eq`, `operandStop_eq`).
-/

namespace CustomElement.Script

open Text

namespace Stream

variable {s : Stream} {hi j k : Nat}

variable (s) in
def angleStop (hi depth m : Nat) : Option Nat := (s.angleEndFrom hi depth m).map Subtype.val

variable (s) in
def suffixStop (hi m : Nat) : Nat := (s.suffixEnd hi m).1

variable (s) in
def typeStop (hi j : Nat) : Except Fault Nat := Subtype.val <$> s.typeEnd hi j

variable (s) in
def tailStop (hi k : Nat) : Except Fault Nat := Subtype.val <$> s.typeTail hi k

variable (s) in
def operandStop (hi j : Nat) : Except Fault Nat := Subtype.val <$> s.operandEnd hi j

lemma angleStop_eq (hi d m : Nat) : s.angleStop hi d m = if m < hi then
      if (s.tok m).isPunct "<" then s.angleStop hi (d + 1) (m + 1)
      else if (s.tok m).isPunct ">" then if d ≤ 1 then some m else s.angleStop hi (d - 1) (m + 1)
      else if (s.tok m).isOpener then s.angleStop hi d (s.close hi m + 1)
      else if (s.tok m).kind == .punct && notInTypes.contains (s.tok m).text then none else s.angleStop hi d (m + 1)
    else none := by
  unfold angleStop
  conv_lhs => rw [angleEndFrom]
  simp only [apply_ite (Option.map Subtype.val), Option.map_map, map_some, map_none, comp_def]

lemma suffixStop_eq (hi m : Nat) : s.suffixStop hi m =
    if m < hi ∧ s.is m "[" ∧ !s.breakBefore m then s.suffixStop hi (s.close hi m + 1) else m := by
  unfold suffixStop
  conv_lhs => rw [suffixEnd]
  split <;> rfl

lemma val_bind {α β : Type} {P : α → Prop} {Q : β → Prop} (x : Except Fault { a // P a })
    {f : { a // P a } → Except Fault { b // Q b }} {g : α → Except Fault β} (h : ∀ a, Subtype.val <$> f a = g a.1) :
    Subtype.val <$> (x >>= f) = (Subtype.val <$> x) >>= g := by
  cases x with
  | error fault => rfl
  | ok a => exact h a

lemma val_weaken {α : Type} {P Q : α → Prop} (x : Except Fault { a // P a }) (h : ∀ a, P a → Q a) : Subtype.val <$> (do
      let ⟨a, ha⟩ ← x return (⟨a, h a ha⟩ : { a // Q a })) = Subtype.val <$> x := by
  cases x with
  | error fault => rfl
  | ok a => rfl

lemma typeStop_eq (hi j : Nat) : s.typeStop hi j =
    s.operandStop hi (if j < hi && s.isAny j ["|", "&"] then j + 1 else j) >>= s.tailStop hi := by
  unfold typeStop
  rw [typeEnd]
  split
  · exact val_bind (s.operandEnd hi (j + 1)) fun k => val_weaken (s.typeTail hi k.1) _
  · exact val_bind (s.operandEnd hi j) fun k => val_weaken (s.typeTail hi k.1) _

variable (s) in
/-- The position after the branches of a conditional type whose `extends` stands at `k`, when its bound ends before
`checked`. -/
def branchesStop (hi k checked : Nat) : Except Fault Nat :=
  if checked < hi && s.is checked "?" then
    s.typeStop hi (checked + 1) >>= fun yes =>
      if yes < hi && s.is yes ":" then s.typeStop hi (yes + 1) else throw (s.unsupported k "conditional type")
  else throw (s.unsupported k "conditional type")

lemma tailStop_eq (hi k : Nat) : s.tailStop hi k = if k < hi then
      if s.isAny k ["|", "&"] then s.operandStop hi (k + 1) >>= s.tailStop hi
      else if s.is k "extends" && !s.breakBefore k then
        s.operandStop hi (k + 1) >>= fun checked => s.branchesStop hi k checked >>= s.tailStop hi else return k
    else return k := by
  conv_lhs => rw [tailStop, typeTail]
  split
  · split
    · exact val_bind (s.operandEnd hi (k + 1)) fun m => val_weaken (s.typeTail hi m.1) _
    · split
      · refine val_bind (s.operandEnd hi (k + 1)) ?_
        rintro ⟨checked, hc⟩
        dsimp only
        unfold branchesStop
        split
        · rw [bind_assoc]
          refine val_bind (s.typeEnd hi (checked + 1)) ?_
          rintro ⟨yes, hy⟩
          dsimp only
          split
          · exact val_bind (s.typeEnd hi (yes + 1)) fun no => val_weaken (s.typeTail hi no.1) _
          · rfl
        · rfl
      · rfl
  · rfl

variable (s) in
def functionStop (hi j : Nat) : Except Fault Nat := Subtype.val <$> s.functionTypeEnd hi j

lemma functionStop_eq (hi j : Nat) : s.functionStop hi j = if j < hi ∧ s.is j "(" then
      if s.close hi j + 1 < hi && s.is (s.close hi j + 1) "=>" then s.typeStop hi (s.close hi j + 2)
      else throw (s.unsupported j "function type") else throw (s.unsupported j "function type") := by
  conv_lhs => rw [functionStop, functionTypeEnd]
  split
  · dsimp only
    split
    · exact val_weaken (s.typeEnd hi (s.close hi j + 2)) _
    · rfl
  · rfl

variable (s) in
def argumentsStop (hi m : Nat) : Except Fault Nat :=
  if m < hi && s.is m "<" && !s.breakBefore m then
    match s.angleStop hi 0 m with
    | some angle => return angle + 1
    | none => throw (s.unsupported m "type arguments")
  else return m

variable (s) in
/-- The position after the type that a predicate at `n` is about, if there is one. -/
def predicateStop (hi n : Nat) : Except Fault Nat :=
  if n < hi && s.is n "is" && !s.breakBefore n then s.typeStop hi (n + 1) else return n

variable (s) in
/-- The position after the operand that starts at `i`, without the square brackets behind it. -/
def primaryStop (hi i : Nat) : Except Fault Nat :=
  if i < hi then
    match (s.tok i).kind with
    | .punct =>
      if (s.tok i).text == "<" then
        match s.angleStop hi 0 i with
        | some angle => s.functionStop hi (angle + 1)
        | none => throw (s.unsupported i "type parameters")
      else if (s.tok i).text == "(" then
        if s.close hi i + 1 < hi && s.is (s.close hi i + 1) "=>" then s.typeStop hi (s.close hi i + 2)
        else return s.close hi i + 1
      else if (s.tok i).text == openBrace || (s.tok i).text == "[" then return s.close hi i + 1
      else if (s.tok i).text == "-" && (s.tok (i + 1)).kind == .number then return i + 2
      else throw (s.unsupported i (s.tok i).text)
    | .word => s.argumentsStop hi (s.dottedEnd hi (i + 1)).1 >>= s.predicateStop hi
    | .string | .number | .template => return i + 1
    | _ => throw (s.unsupported i (s.tok i).text)
  else throw (s.unsupported i "type")

lemma operandStop_eq (hi j : Nat) : s.operandStop hi j =
    s.primaryStop hi (s.operandStart hi j).1 >>= fun m => return s.suffixStop hi m := by
  rw [operandStop, operandEnd, primaryStop]
  generalize s.operandStart hi j = start
  obtain ⟨i, hij⟩ := start
  dsimp only
  split
  · cases (s.tok i).kind with
    | punct =>
      dsimp only
      split
      · unfold angleStop
        rw [← angleEnd]
        cases s.angleEnd hi i with
        | none => rfl
        | some angle => exact val_bind (s.functionTypeEnd hi (angle.1 + 1)) fun m => rfl
      · split
        · split
          · exact val_bind (s.typeEnd hi (s.close hi i + 2)) fun m => rfl
          · rfl
        · split
          · rfl
          · split
            · rfl
            · rfl
    | word =>
      dsimp only
      generalize s.dottedEnd hi (i + 1) = dotted
      obtain ⟨m, hm⟩ := dotted
      unfold argumentsStop predicateStop
      dsimp only
      split
      · unfold angleStop
        rw [← angleEnd]
        cases s.angleEnd hi m with
        | none => rfl
        | some angle =>
          simp only [map_some, pure_bind]
          split
          · exact val_bind (s.typeEnd hi (angle.1 + 1 + 1)) fun p => rfl
          · rfl
      · simp only [pure_bind]
        split
        · exact val_bind (s.typeEnd hi (m + 1)) fun p => rfl
        · rfl
    | _ => rfl
  · rfl

lemma lt_of_typeStop {m : Nat} (h : s.typeStop hi j = .ok m) : j < m := by
  obtain ⟨⟨_, hl⟩, -, rfl⟩ := map_eq_ok.1 h
  exact hl

lemma lt_of_branchesStop {checked no : Nat} (h : s.branchesStop hi k checked = .ok no) : checked < no := by
  unfold branchesStop at h
  split at h
  · obtain ⟨yes, hy, h⟩ := bind_eq_ok.1 h
    have hl := lt_of_typeStop hy
    split at h
    · have hl' := lt_of_typeStop h
      omega
    · cases h
  · cases h

lemma le_of_argumentsStop {m n : Nat} (h : s.argumentsStop hi m = .ok n) : m ≤ n := by
  unfold argumentsStop at h
  split at h
  · cases ha : s.angleStop hi 0 m with
    | none =>
      rw [ha] at h
      cases h
    | some angle =>
      obtain ⟨⟨_, hg⟩, -, rfl⟩ := map_eq_some_iff.1 ha
      rw [ha] at h
      cases h
      exact Nat.le_succ_of_le hg
  · exact (ok.inj h).le

lemma suffixStop_suffixStop (hi m : Nat) : s.suffixStop hi (s.suffixStop hi m) = s.suffixStop hi m := by
  generalize hn : hi - m = n
  induction n using Nat.strong_induction_on generalizing m with
  | _ n ih =>
    rw [suffixStop_eq hi m]
    split
    · rename_i hb
      have hc := s.le_close hi m
      exact ih _ (by omega) _ rfl
    · rename_i hb
      rw [suffixStop_eq, if_neg hb]

lemma operandStop_settled {m : Nat} (h : s.operandStop hi j = .ok m) : j < m ∧ s.suffixStop hi m = m := by
  constructor
  · obtain ⟨a, -, rfl⟩ := map_eq_ok.1 h
    exact a.2
  · rw [operandStop_eq, bind_eq_ok] at h
    obtain ⟨n, -, h⟩ := h
    cases h
    exact suffixStop_suffixStop hi n

lemma tailStop_settled {e : Nat} (hk : s.suffixStop hi k = k) (h : s.tailStop hi k = .ok e) :
    s.suffixStop hi e = e ∧ s.tailStop hi e = .ok e := by
  generalize hn : hi - k = n
  induction n using Nat.strong_induction_on generalizing k e with
  | _ n ih =>
    have hse := h
    rw [tailStop_eq] at h
    split at h
    · split at h
      · obtain ⟨m, hm, h⟩ := bind_eq_ok.1 h
        obtain ⟨hl, hs⟩ := operandStop_settled hm
        exact ih _ (by omega) hs h rfl
      · split at h
        · obtain ⟨checked, hc, h⟩ := bind_eq_ok.1 h
          obtain ⟨no, hno, h⟩ := bind_eq_ok.1 h
          have hl := (operandStop_settled hc).1
          -- The branch behind the colon is a type: an operand, and what follows it.
          obtain ⟨i, hi', m, hm, hm'⟩ : ∃ i, checked < i ∧ ∃ m, s.operandStop hi i = .ok m ∧ s.tailStop hi m = .ok no := by
            unfold branchesStop at hno
            split at hno
            · obtain ⟨yes, hy, hno⟩ := bind_eq_ok.1 hno
              split at hno
              · obtain ⟨a, -, rfl⟩ := map_eq_ok.1 hy
                have ha := a.2
                rw [typeStop_eq, bind_eq_ok] at hno
                exact ⟨_, by split <;> omega, hno⟩
              · cases hno
            · cases hno
          obtain ⟨hl', hs⟩ := operandStop_settled hm
          obtain ⟨hs', hno'⟩ := ih _ (by omega) hs hm' rfl
          obtain rfl := ok.inj (hno'.symm.trans h)
          exact ⟨hs', hno'⟩
        · cases h
          exact ⟨hk, hse⟩
    · cases h
      exact ⟨hk, hse⟩

end Stream
end CustomElement.Script
