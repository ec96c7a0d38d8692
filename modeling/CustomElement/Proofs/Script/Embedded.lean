import CustomElement.Proofs.Script.Frames
import CustomElement.Proofs.Script.Substitutions
import CustomElement.Script.Erasure.Enumeration

/-!
# Expressions inside a script

Expressions in template literals and enumerations are shorter than the script by more than the two parentheses that
are put around them (`exists_slice_of_templateSubstitutions`, `Stream.length_initializer`).
-/

namespace CustomElement.Script

open List Text

section

variable {x : String} {subs : List Substitution} (h : templateSubstitutions x = .ok subs)

include h

lemma exists_of_templateSubstitutions :
    ∀ sub ∈ subs, ∃ fr code back, x.toList = fr ++ ['$', '{'] ++ (code ++ '}' :: back) ∧ fr ≠ [] ∧ back ≠ [] ∧
      sub.span = ⟨byteLength (fr ++ ['$', '{']), byteLength (fr ++ ['$', '{']) + byteLength code⟩ := by
  intro sub hsu
  unfold templateSubstitutions at h
  split at h
  · cases h
  · rename_i c cs ht
    split at h
    · rename_i cut subs' hr
      cases h
      obtain ⟨fr, code, back, hh, hb, hs, -⟩ := (divided_of_templateRest hr).exists_append sub hsu
      have hc := cut.head_append_rest
      rw [hh] at hc
      have hsi : byteLength (c :: fr ++ ['$', '{']) = c.utf8Size + byteLength fr + 2 := by
        rw [byteLength_append]
        rfl
      refine ⟨c :: fr, code, back ++ cut.rest, by simp [ht, ← hc], cons_ne_nil _ _, by simp [hb], ?_⟩
      rw [hs, hsi]
    · cases h

lemma exists_slice_of_templateSubstitutions {sub : Substitution} (hsu : sub ∈ subs) :
    ∃ expr, sub.span.slice? x = some expr ∧ expr.length + 5 ≤ x.length := by
  obtain ⟨fr, code, back, ht, hf, hb, hs⟩ := exists_of_templateSubstitutions h sub hsu
  refine ⟨String.ofList code, by rw [Span.slice?, ht, hs, slice?_middle]; rfl, ?_⟩
  have hl := congrArg length ht
  have hf := length_pos_iff.2 hf
  have hb := length_pos_iff.2 hb
  rw [length_toList] at hl
  rw [String.length_ofList, hl]
  simp only [length_append, length_cons, length_nil]
  omega

end

lemma length_takeBytes_le (n : Nat) (cs : List Char) : (takeBytes n cs).length ≤ cs.length := by
  induction cs generalizing n with
  | nil => simp [takeBytes]
  | cons c cs ih =>
    rw [takeBytes]
    split
    · simp [ih]
    · simp

lemma length_le_length_charsOf {ts : List Token} (h : ∀ t ∈ ts, t.text ≠ "") : ts.length ≤ (charsOf ts).length := by
  induction ts with
  | nil => simp
  | cons t ts ih =>
    obtain ⟨ht, hts⟩ := forall_mem_cons.1 h
    have hp : 0 < t.text.toList.length := by
      rw [length_pos_iff]
      intro hn
      exact ht (String.toList_eq_nil_iff.1 hn)
    have hm := ih hts
    rw [charsOf_cons, length_append, length_cons]
    omega

namespace Stream

variable {s : Stream} {source : String} {erase erase' : String → Except Fault String}

section

variable (hs : Stream.read source = .ok s)

include hs

lemma length_dropBytes_start {j : Nat} (hj : j < s.size) :
    (dropBytes (s.tok j).start s.source.toList).length + j ≤ s.source.length := by
  obtain ⟨-, -, -, -, hso, -⟩ := exists_of_read hs
  obtain ⟨pre, post, hto, hb⟩ := exists_split_tok hs hj
  have hti := tokensFrom_tiles (mapError_eq_ok.1 hto)
  have hc : charsOf (pre ++ s.tok j :: post) = source.toList := hti.flatten_text
  have hco := length_le_length_charsOf fun t ht => hti.text_ne_empty t (mem_append_left _ ht)
  have hf := length_filter_le (fun t : Token => !t.isTrivia) pre
  rw [charsOf_append] at hc
  rw [hso, ← hc, hti.start_eq, zero_add, dropBytes_byteLength, ← length_toList, ← hc, length_append]
  omega

lemma length_text_tok {j : Nat} (hj : j < s.size) : (s.tok j).text.length ≤ s.source.length := by
  obtain ⟨a, b, heq, -⟩ := exists_source_tok hs hj
  rw [← length_toList, ← length_toList, heq]
  simp only [length_append]
  omega

lemma length_initializer {lo : Nat} (hl : 4 ≤ lo) (hsi : lo < s.size) (n : Nat) :
    (takeBytes n (dropBytes (s.tok lo).start s.source.toList)).length + 3 ≤ s.source.length := by
  have ht := length_takeBytes_le n (dropBytes (s.tok lo).start s.source.toList)
  have hd := length_dropBytes_start hs hsi
  omega

lemma slice?_string {j : Nat} (hk : (s.tok j).kind = .string) :
    (Span.mk 1 (byteLength (s.tok j).text.toList - 1)).slice? (s.tok j).text =
      some (String.ofList ((s.tok j).text.toList.drop 1).dropLast) := by
  obtain ⟨ts, -, ht, -⟩ := exists_of_read hs
  have hm := tok_mem_of_lt hs ht (lt_size_of_kind (by rw [hk]; nofun))
  obtain ⟨fr, sl, _, r, hl⟩ := (tokenize_eq_ok_iff.1 ⟨ts, ht, rfl⟩).exists_lexes (mem_map_of_mem hm)
  obtain ⟨q, text, hte, hq⟩ := hl.exists_quotes hk
  have hte : (s.tok j).text.toList = [q] ++ (text ++ [q]) := hte
  have hsi : byteLength [q] = 1 := by rcases hq with rfl | rfl <;> rfl
  have hsl := slice?_middle [q] text [q]
  have hst : byteLength ([q] ++ (text ++ [q])) - 1 = byteLength [q] + byteLength text := by
    rw [byteLength_append, byteLength_append]
    omega
  have hd : (([q] ++ (text ++ [q])).drop 1).dropLast = text := by simp
  rw [Span.slice?, hte, hst, hd, ← hsi, hsl]
  rfl

end

variable (s)

def assigned (hi m : Nat) : Bool := m + 1 < hi && s.is (m + 1) "="

def memberStop (hi m : Nat) : Nat := if s.assigned hi m then s.initializerEnd hi (m + 2) else m + 1

def nextMember (hi m : Nat) : Nat :=
  if s.memberStop hi m < hi && s.is (s.memberStop hi m) "," then s.memberStop hi m + 1 else s.memberStop hi m

def memberValue (erase : String → Except Fault String) (name : String) (hi m : Nat) (members : List String) :
    Except Fault (Option EnumValue) :=
  if s.assigned hi m then
    if s.memberStop hi m = m + 2 then throw (s.unsupported (m + 1) "enum initializer")
    else some <$> s.enumInitializer erase (m + 2) (s.memberStop hi m) name members
  else return none

/-- The assignment for the member `key` at `m`, and the value after its own. -/
def memberLine (name key : String) (m : Nat) (value : Option EnumValue) (next : Option String) :
    Except Fault (String × Option String) :=
  let ownKey := name ++ "[" ++ key ++ "]"
  let numbered (text : String) : String := name ++ "[" ++ ownKey ++ " = " ++ text ++ "] = " ++ key ++ ";"
  match value, next with
  | some ⟨text, true⟩, _ => return (ownKey ++ " = " ++ text ++ ";", none)
  | some ⟨text, false⟩, _ => return (numbered text, some (nextEnumValue text name key))
  | none, some text => return (numbered text, some (nextEnumValue text name key))
  | none, none => throw (s.unsupported m "enum member without initializer")

variable {s}

lemma enumLines_eq (name : String) (hi m : Nat) (ms : List String) (next : Option String) :
    s.enumLines erase name hi m ms next = if m < hi then
        s.enumKey m >>= fun key => s.memberValue erase name hi m ms >>= fun v =>
          s.memberLine name key.1 m v next >>= fun line =>
            s.enumLines erase name hi (max (s.nextMember hi m) (m + 1)) (ms ++ [key.2]) line.2 >>= fun ls =>
              return line.1 :: ls else return [] := by
  rw [enumLines]
  split
  · refine bind_congr fun key => ?_
    unfold memberValue nextMember memberStop
    rw [← assigned]
    cases ha : s.assigned hi m with
    | false =>
      simp only [Bool.false_and, false_eq_true, if_false]
      cases next with
      | none => rfl
      | some x => rfl
    | true =>
      simp only [Bool.true_and, if_true, beq_iff_eq]
      split
      · rfl
      · cases s.enumInitializer erase (m + 2) (s.initializerEnd hi (m + 2)) name ms with
        | error fault => rfl
        | ok v =>
          obtain ⟨x, isString⟩ := v
          cases isString with
          | false => rfl
          | true => rfl
  · rfl

end Stream

end CustomElement.Script
