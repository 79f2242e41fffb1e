/-
LiteKV.Net.TextTheorems — the two ways a text is stored.

A text that is the canonical decimal of an `int64_t` is kept as the integer,
any other as its bytes, and `append` and the integer commands move a key from
one to the other. `Text` is a key as GET sees it, and `Text.after` the effect
of a command on it, written without any reference to the representation.
`serve_text` is the step: every command does to the text what it should. The
replies of GET, STRLEN and APPEND are functions of the text, so no run of
commands tells the two representations apart.

The integer commands need the integer type: a string such as `5`, put together
by `append`, is refused by them. Which of them succeed is therefore read off
their replies.
-/
import LiteKV.Net.IntegerTheorems

namespace LiteKV

open Lib

/-! ## Texts -/

/-- A key as GET sees it. -/
inductive Text where
  | absent
  | text (b : Bytes)
  | collection
  deriving DecidableEq

namespace Text

/-- What a key's content is to GET: an integer is the text it prints as. -/
def ofCell : Cell → Text
  | none => absent
  | some (.int n) => text (intToString n.toInt)
  | some (.string b) => text b
  | some _ => collection

/-- The bytes of a text; there are none where there is no text. -/
def bytes : Text → Bytes
  | text b => b
  | _ => []

/-- The number a text stands for. -/
def number : Text → Option Int
  | absent => some 0
  | text b => decimal b
  | collection => none

/-- APPEND. -/
def append (t : Text) (v : Bytes) : Text :=
  match t with
  | collection => collection
  | t => text (t.bytes ++ v)

/-- The reply of GET. -/
def getReply : Text → Bytes
  | absent => kNilMsg
  | text b => packStringValueReply b
  | collection => kWrongTypeMsg

/-- The reply of APPEND. -/
def appendReply (t : Text) (v : Bytes) : Bytes :=
  match t with
  | collection => kWrongTypeMsg
  | t => packIntReply (t.append v).bytes.length

end Text

/-- The commands on a text. -/
inductive TextOp where
  | set | append | get | strlen
  | arith (op : IntOp)

def TextOp.opcode : TextOp → Opcode
  | set => .set
  | append => .append
  | get => .get
  | strlen => .strlen
  | arith op => op.opcode

/-- What a command makes of a text; an increment that was answered with a number
makes it the decimal of the sum. -/
def Text.after (t : Text) (r : KeyRequest TextOp) (p : Reply) : Text :=
  match r.op, r.words with
  | .set, [v] => .text v
  | .append, [v] => t.append v
  | .arith op, words =>
      if p.succeeded then .text (intToString (t.number.getD 0 + (op.amount words).getD 0)) else t
  | _, _ => t

theorem TextOp.single (op : TextOp) : op.opcode.single = true := by
  cases op with
  | arith op => cases op <;> rfl
  | _ => rfl

@[simp] theorem Text.ofCell_ofText (v : Bytes) : Text.ofCell (some (.ofText v)) = .text v := by
  unfold Value.ofText
  cases hc : canConvertToInt64 v with
  | none => rfl
  | some n => exact congrArg Text.text (canConvertToInt64_eq_some.mp hc).symm

theorem Text.ofCell_append (v : Bytes) (c : Cell) :
    Text.ofCell (Cell.append v c).1 = (Text.ofCell c).append v := by
  cases c with
  | none => rfl
  | some x => cases x <;> rfl

/-- An increment replaces the text by the decimal of the sum, or leaves it. -/
theorem Text.ofCell_plus {d : Int} (hd : InInt64 d) (c : Cell) :
    (Reply.succeeded (.ok (Cell.plus d c).2) = true ∧
      ∃ n, (Text.ofCell c).number = some n ∧ (Cell.plus d c).2 = packIntReply (n + d) ∧
        Text.ofCell (Cell.plus d c).1 = .text (intToString (n + d))) ∨
    (Reply.succeeded (.ok (Cell.plus d c).2) = false ∧ (Cell.plus d c).1 = c) := by
  cases c with
  | none =>
      refine .inl ⟨rfl, 0, rfl, by rw [Int.zero_add]; rfl, ?_⟩
      rw [Int.zero_add, Cell.plus, ofCell, InInt64.toInt_ofInt hd]
  | some x =>
      cases x with
      | int n =>
          by_cases hfit : InInt64 (n.toInt + d)
          · have hplus := Cell.plus_of_fits (c := some (.int n)) (v := n.toInt) rfl hfit
            rw [hplus]
            refine .inl ⟨rfl, n.toInt, decimal_intToString (inInt64_toInt n), rfl, ?_⟩
            rw [ofCell, InInt64.toInt_ofInt hfit]
          · have hplus := Cell.plus_of_overflow (c := some (.int n)) (v := n.toInt) rfl hd hfit
            rw [hplus]
            exact .inr ⟨rfl, rfl⟩
      | _ => exact .inr ⟨rfl, rfl⟩

section

variable {s : Engine} (hok : s.holder.Ok) (key : Bytes)

/-- What the handler of a command on one key leaves under it. -/
theorem serve_effect {Op : Type} (opcode : Op → Opcode) (r : KeyRequest Op) (hok : s.holder.Ok)
    (hop : (opcode r.op).single = true) :
    (r.serve opcode key s).1.holder.Ok ∧
      (r.serve opcode key s).1.holder.view (.ofStdString key)
        = ((opcode r.op).effect ((opcode r.op).name :: key :: r.words)
            (s.holder.view (.ofStdString key))).1 := by
  have haff : Affects r.ctx s ((opcode r.op).name :: key :: r.words)
      ((opcode r.op).effect ((opcode r.op).name :: key :: r.words)) (r.serve opcode key s).1 :=
    handler_affects hok (opcode r.op) hop
  refine ⟨haff.acts.1, ?_⟩
  rw [haff.acts.2]
  exact Function.update_self _ _ _

/-- A command with one operand has its effect only with one. -/
theorem effect_operand (op : Opcode) (name : Bytes) (words : List Bytes) (c : Cell)
    (hs : op.syntaxOk (name :: key :: words) = checkSyntax (name :: key :: words) 1 1 false) :
    (∃ v, words = [v] ∧ op.effect (name :: key :: words) c = op.body [name, key, v] c) ∨
      (words.length ≠ 1 ∧ op.effect (name :: key :: words) c = (c, false)) := by
  have hcheck : checkSyntax (name :: key :: words) 1 1 false = true
      ↔ (name :: key :: words).length = 1 + 2 := checkSyntax_operands _ 1
  by_cases hl : words.length = 1
  · obtain ⟨v, rfl⟩ := List.length_eq_one_iff.mp hl
    exact .inl ⟨v, rfl, by rw [Opcode.effect, hs, if_pos (hcheck.mpr rfl)]⟩
  · refine .inr ⟨hl, ?_⟩
    rw [Opcode.effect, hs, if_neg]
    intro hc
    have := hcheck.mp hc
    simp only [List.length_cons] at this
    omega

/-- `set` and `append` need one operand. -/
theorem Text.after_of_operands {t : Text} {ctx : Ctx} {op : TextOp} {words : List Bytes} (p : Reply)
    (h : words.length ≠ 1) (hop : op = .set ∨ op = .append) : t.after ⟨ctx, op, words⟩ p = t := by
  cases words with
  | nil => obtain rfl | rfl := hop <;> rfl
  | cons v ws =>
      cases ws with
      | nil => exact absurd rfl h
      | cons w ws => obtain rfl | rfl := hop <;> rfl

include hok

/-- An integer command, on a text. -/
theorem serve_arith_text (r : KeyRequest IntOp) :
    Text.ofCell ((r.serve IntOp.opcode key s).1.holder.view (.ofStdString key))
      = (Text.ofCell (s.holder.view (.ofStdString key))).after ⟨r.ctx, .arith r.op, r.words⟩
          (r.serve IntOp.opcode key s).2 := by
  cases hd : r.op.amount r.words with
  | none =>
      obtain ⟨hs, hr⟩ := serve_refuses s key r hd
      rw [hs, Text.after]
      dsimp only
      rw [not_succeeded_of_refused hr]
      rfl
  | some d =>
      obtain ⟨hacts, hreply⟩ := serve_adds hok key r hd
      rw [hreply, hacts.2, Function.update_self, Text.after]
      dsimp only
      rw [hd]
      obtain ⟨hyes, n, hn, -, ht⟩ | ⟨hno, ht⟩ :=
        Text.ofCell_plus (IntOp.amount_inInt64 hd) (s.holder.view (.ofStdString key))
      · rw [hyes, if_pos rfl, hn, ht]
        rfl
      · rw [hno, ht]
        rfl

/-- Every command on a text does to it what it should. -/
theorem serve_text (r : KeyRequest TextOp) :
    (r.serve TextOp.opcode key s).1.holder.Ok ∧
      Text.ofCell ((r.serve TextOp.opcode key s).1.holder.view (.ofStdString key))
        = (Text.ofCell (s.holder.view (.ofStdString key))).after r
            (r.serve TextOp.opcode key s).2 := by
  obtain ⟨hok', hview⟩ := serve_effect key TextOp.opcode r hok r.op.single
  refine ⟨hok', ?_⟩
  obtain ⟨ctx, op, words⟩ := r
  cases op with
  | get =>
      rw [hview]
      rfl
  | strlen =>
      rw [hview]
      rfl
  | set =>
      rw [hview]
      obtain ⟨v, rfl, he⟩ | ⟨hl, he⟩ :=
        effect_operand key .set Opcode.set.name words (s.holder.view (.ofStdString key)) rfl
      · exact (congrArg (fun x => Text.ofCell x.1) he).trans (Text.ofCell_ofText v)
      · rw [Text.after_of_operands _ hl (.inl rfl)]
        exact congrArg (fun x => Text.ofCell x.1) he
  | append =>
      rw [hview]
      obtain ⟨v, rfl, he⟩ | ⟨hl, he⟩ :=
        effect_operand key .append Opcode.append.name words (s.holder.view (.ofStdString key)) rfl
      · exact (congrArg (fun x => Text.ofCell x.1) he).trans (Text.ofCell_append v _)
      · rw [Text.after_of_operands _ hl (.inr rfl)]
        exact congrArg (fun x => Text.ofCell x.1) he
  | arith op =>
      exact serve_arith_text hok key ⟨ctx, op, words⟩

end

section

variable (ctx : Ctx) (s : Engine) (key : Bytes)

theorem getCommand_reply : (getCommand ctx s [ascii "get", key]).2
    = .ok (Text.ofCell (s.holder.view (.ofStdString key))).getReply := by
  change Except.ok _ = _
  congr 1
  cases hf : s.holder.find (.ofStdString key) with
  | none =>
      simp [arg, KVContainer.get, hf, KVContainer.view_of_find_none hf, Text.ofCell, Text.getReply]
  | some obj =>
      rw [KVContainer.view_of_find hf]
      cases hp : obj.payload <;>
        simp [arg, KVContainer.get, hf, hp, Payload.toValue, Text.ofCell, Text.getReply]

theorem strlenCommand_reply : (strlenCommand ctx s [ascii "strlen", key]).2
    = .ok (packIntReply (Text.ofCell (s.holder.view (.ofStdString key))).bytes.length) := by
  change Except.ok _ = _
  congr 1
  cases hf : s.holder.find (.ofStdString key) with
  | none =>
      simp [arg, KVContainer.strLen, hf, KVContainer.view_of_find_none hf, Text.ofCell, Text.bytes]
  | some obj =>
      rw [KVContainer.view_of_find hf]
      cases hp : obj.payload <;>
        simp [arg, KVContainer.strLen, hf, hp, Payload.toValue, Text.ofCell, Text.bytes]

theorem appendCommand_reply (v : Bytes) : (appendCommand ctx s [ascii "append", key, v]).2
    = .ok ((Text.ofCell (s.holder.view (.ofStdString key))).appendReply v) := by
  change Except.ok _ = _
  congr 1
  cases hf : s.holder.find (.ofStdString key) with
  | none =>
      simp [arg, KVContainer.append, hf, KVContainer.view_of_find_none hf, Text.ofCell,
        Text.appendReply, Text.append, Text.bytes]
  | some obj =>
      rw [KVContainer.view_of_find hf]
      cases hp : obj.payload <;>
        simp [arg, KVContainer.append, hf, hp, Payload.toValue, Text.ofCell, Text.appendReply,
          Text.append, Text.bytes]

end

/-- An integer command that is answered with a number found one. -/
theorem serve_succeeded {s : Engine} (hok : s.holder.Ok) (key : Bytes) (r : KeyRequest IntOp)
    (h : (r.serve IntOp.opcode key s).2.succeeded = true) :
    ∃ n d, (Text.ofCell (s.holder.view (.ofStdString key))).number = some n ∧
      r.op.amount r.words = some d ∧
      (r.serve IntOp.opcode key s).2 = .ok (packIntReply (n + d)) := by
  cases hd : r.op.amount r.words with
  | none =>
      rw [not_succeeded_of_refused (serve_refuses s key r hd).2] at h
      cases h
  | some d =>
      have hreply := (serve_adds hok key r hd).reply
      rw [hreply] at h
      obtain ⟨-, n, hn, hp, -⟩ | ⟨hno, -⟩ :=
        Text.ofCell_plus (IntOp.amount_inInt64 hd) (s.holder.view (.ofStdString key))
      · exact ⟨n, d, hn, rfl, by rw [hreply, hp]⟩
      · rw [hno] at h
        cases h

/-- The text after a run of requests with these replies. -/
def Text.afterRun (t : Text) (rs : List (KeyRequest TextOp)) (replies : List Reply) : Text :=
  (rs.zip replies).foldl (fun t x => t.after x.1 x.2) t

/-- A run of commands does to the text what its commands should do one after the
other. -/
theorem run_text (key : Bytes) (rs : List (KeyRequest TextOp)) :
    ∀ {s : Engine}, s.holder.Ok →
      (Run.trace (KeyRequest.serve TextOp.opcode key) s rs).1.holder.Ok ∧
        Text.ofCell ((Run.trace (KeyRequest.serve TextOp.opcode key) s rs).1.holder.view
            (.ofStdString key))
          = (Text.ofCell (s.holder.view (.ofStdString key))).afterRun rs
              (Run.trace (KeyRequest.serve TextOp.opcode key) s rs).2 := by
  induction rs with
  | nil =>
      intro s hok
      exact ⟨hok, rfl⟩
  | cons r rs ih =>
      intro s hok
      obtain ⟨hok', ht⟩ := serve_text hok key r
      obtain ⟨hok'', ht'⟩ := ih hok'
      refine ⟨hok'', ?_⟩
      simp only [Run.trace_cons]
      rw [ht', ht]
      rfl

/-- After any run, GET, STRLEN and APPEND answer from the text alone, an integer
command that succeeds has added to the number the text is the decimal of, and
a key of integer type has the canonical decimal of its number as its text. -/
theorem text_invisible {s : Engine} (hok : s.holder.Ok) (key : Bytes)
    (rs : List (KeyRequest TextOp)) :
    let run := Run.trace (KeyRequest.serve TextOp.opcode key) s rs
    let t := (Text.ofCell (s.holder.view (.ofStdString key))).afterRun rs run.2
    (∀ ctx, (getCommand ctx run.1 [ascii "get", key]).2 = .ok t.getReply) ∧
    (∀ ctx, (strlenCommand ctx run.1 [ascii "strlen", key]).2
      = .ok (packIntReply t.bytes.length)) ∧
    (∀ ctx v, (appendCommand ctx run.1 [ascii "append", key, v]).2 = .ok (t.appendReply v)) ∧
    (∀ r : KeyRequest IntOp, (r.serve IntOp.opcode key run.1).2.succeeded = true →
      ∃ n d, t.number = some n ∧ r.op.amount r.words = some d ∧
        (r.serve IntOp.opcode key run.1).2 = .ok (packIntReply (n + d))) ∧
    (run.1.holder.queryObjectType (.ofStdString key) = some 1 →
      ∃ n, InInt64 n ∧ t = .text (intToString n)) := by
  intro run t
  obtain ⟨hok', ht⟩ := run_text key rs hok
  have ht' : Text.ofCell (run.1.holder.view (.ofStdString key)) = t := ht
  rw [← ht']
  refine ⟨fun ctx => getCommand_reply ctx run.1 key, fun ctx => strlenCommand_reply ctx run.1 key,
    fun ctx v => appendCommand_reply ctx run.1 key v, fun r hr => serve_succeeded hok' key r hr, ?_⟩
  intro hint
  obtain ⟨obj, hf, hobj⟩ := Option.map_eq_some_iff.mp hint
  rw [KVContainer.view_of_find hf]
  cases hp : obj.payload with
  | int n => exact ⟨n.toInt, inInt64_toInt n, rfl⟩
  | _ => simp [hp, Payload.objectType] at hobj

/-- `set a 12`, `incr a`, `append a 0`: an integer that becomes a string. -/
def twelve : List (KeyRequest TextOp) :=
  [⟨calm, .set, [ascii "12"]⟩, ⟨calm, .arith .incr, []⟩, ⟨calm, .append, [ascii "0"]⟩]

theorem text_invisible_twelve :
    (getCommand calm (Run.trace (KeyRequest.serve TextOp.opcode [97]) Engine.new twelve).1
      [ascii "get", [97]]).2 = .ok (packStringValueReply (ascii "130")) := by
  obtain ⟨hget, -⟩ := text_invisible (s := Engine.new) KVContainer.ok_new [97] twelve
  rw [hget calm]
  have ht : (Text.ofCell (Engine.new.holder.view (.ofStdString [97]))).afterRun twelve
      (Run.trace (KeyRequest.serve TextOp.opcode [97]) Engine.new twelve).2
        = .text (ascii "130") := by decide +kernel
  rw [ht]
  rfl

end LiteKV
