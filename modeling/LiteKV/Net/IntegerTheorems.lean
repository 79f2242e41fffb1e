/-
LiteKV.Net.IntegerTheorems — the integer commands.

`incr`, `decr`, `incrby` and `decrby` work in `int64_t`. What they are for is
stated in `Int`: `IntOp.amount` is the signed amount a request asks for, and
`Cell.plus` adds it to what the key holds or refuses. `serve_adds` says that
the four handlers do exactly that, and `integer_commands_exact` carries it
through every run of them.

The second half of the question is whether the machine arithmetic is defined
at all. `incrIntByChecked` and `decrIntByChecked` follow the source once more,
with every `int64_t` expression evaluated under a range check; `ub` stands
for whatever a failed check would do. The handlers never get there, because
they refuse negative amounts.
-/
import LiteKV.Net.CommandsTheorems
import LiteKV.Lib.Run

namespace LiteKV

open Lib

/-! ## Requests on one key -/

/-- A command on a given key: the words behind the key are arbitrary, and so is
their number. -/
structure KeyRequest (Op : Type) where
  ctx : Ctx
  op : Op
  words : List Bytes

/-- The handler of the request's opcode. -/
def KeyRequest.serve {Op : Type} (opcode : Op → Opcode) (key : Bytes) (s : Engine)
    (r : KeyRequest Op) : Engine × Reply :=
  (opcode r.op).handler r.ctx s ((opcode r.op).name :: key :: r.words)

/-- The value fits an `int64_t`. -/
def InInt64 (v : Int) : Prop := -2 ^ 63 ≤ v ∧ v ≤ 2 ^ 63 - 1

instance (v : Int) : Decidable (InInt64 v) := inferInstanceAs (Decidable (_ ∧ _))

theorem InInt64.toInt_ofInt {v : Int} (hv : InInt64 v) : (Int64.ofInt v).toInt = v :=
  Int64.toInt_ofInt_of_le (by simpa using hv.1) (by have := hv.2; norm_num; omega)

theorem inInt64_toInt (n : Int64) : InInt64 n.toInt := by
  have hl := Int64.le_toInt n
  have hu := Int64.toInt_lt n
  constructor <;> omega

theorem InInt64.toInt_add {a b : Int64} (h : InInt64 (a.toInt + b.toInt)) :
    (a + b).toInt = a.toInt + b.toInt := by
  have := h.1
  have := h.2
  rw [Int64.toInt_add, Int.bmod_eq_of_le (by omega) (by omega)]

theorem InInt64.toInt_sub {a b : Int64} (h : InInt64 (a.toInt - b.toInt)) :
    (a - b).toInt = a.toInt - b.toInt := by
  have := h.1
  have := h.2
  rw [Int64.toInt_sub, Int.bmod_eq_of_le (by omega) (by omega)]

theorem InInt64.toInt_neg {a : Int64} (h : InInt64 (-a.toInt)) : (-a).toInt = -a.toInt := by
  have := h.1
  have := h.2
  rw [Int64.toInt_neg, Int.bmod_eq_of_le (by omega) (by omega)]

/-- The 64-bit number a text is the canonical decimal of. -/
def decimal (b : Bytes) : Option Int :=
  let v : Int := if b.head? = some 45 then -(digitsVal b.tail : Int) else digitsVal b
  if b = intToString v ∧ InInt64 v then some v else none

/-- The integer commands. -/
inductive IntOp where
  | incr | decr | incrby | decrby
  deriving DecidableEq

namespace IntOp

def opcode : IntOp → Opcode
  | incr => .incr
  | decr => .decr
  | incrby => .incrby
  | decrby => .decrby

/-- The signed amount a request asks for, if it asks for one: 1, or what its word
is the canonical decimal of, from 0 to `INT64_MAX`. -/
def amount (op : IntOp) (words : List Bytes) : Option Int :=
  match op, words with
  | incr, [] => some 1
  | decr, [] => some (-1)
  | incrby, [word] => (decimal word).filter fun n => decide (0 ≤ n)
  | decrby, [word] => ((decimal word).filter fun n => decide (0 ≤ n)).map fun n => -n
  | _, _ => none

end IntOp

/-- An integer reply; the error replies start with a minus sign. -/
def Reply.succeeded (p : Reply) : Bool :=
  match p with
  | .ok (b :: _) => b == 58
  | _ => false

def Reply.refused (p : Reply) : Bool :=
  match p with
  | .ok (b :: _) => b == 45
  | _ => false

/-! ## The checked operations -/

namespace KVContainer

/-- An `int64_t` expression whose exact value is `v`; `none` when it overflows. -/
def checked (v : Int) : Option Int64 := if InInt64 v then some (Int64.ofInt v) else none

/-- `IncrIntBy`, with the range of each expression checked. -/
def incrIntByChecked (h : KVContainer) (now : Nat) (key : Key) (increment : Int64) :
    Option (KVContainer × Int64 × ErrCode) :=
  match h.find key with
  | none => some (h.insertNew key ⟨.int increment, now⟩, increment, .ok)
  | some obj =>
      match obj.payload.asInt with
      | none => some (h, 0, .wrongType)
      | some val => do
          let limit ← checked (2 ^ 63 - 1 - increment.toInt)   -- INT64_MAX - increment
          if val.toInt > limit.toInt then
            some (h.modify key ⟨.int val, now⟩, 0, .overflow)
          else
            let ans ← checked (val.toInt + increment.toInt)
            some (h.modify key ⟨.int ans, now⟩, ans, .ok)

/-- `DecrIntBy`, with the range of each expression checked. -/
def decrIntByChecked (h : KVContainer) (now : Nat) (key : Key) (decrement : Int64) :
    Option (KVContainer × Int64 × ErrCode) :=
  match h.find key with
  | none => do
      let first ← checked (-decrement.toInt)
      some (h.insertNew key ⟨.int first, now⟩, first, .ok)
  | some obj =>
      match obj.payload.asInt with
      | none => some (h, 0, .wrongType)
      | some val => do
          let limit ← checked (-2 ^ 63 + decrement.toInt)   -- INT64_MIN + decrement
          if val.toInt < limit.toInt then
            some (h.modify key ⟨.int val, now⟩, 0, .overflow)
          else
            let ans ← checked (val.toInt - decrement.toInt)
            some (h.modify key ⟨.int ans, now⟩, ans, .ok)

theorem checked_eq {v : Int} {n : Int64} (hv : InInt64 v) (hn : n.toInt = v) :
    checked v = some n := by
  rw [checked, if_pos hv, ← hn, Int64.ofInt_toInt]

/-- With the amounts the handlers pass, no expression of `IncrIntBy` overflows. -/
theorem incrIntByChecked_eq (h : KVContainer) (now : Nat) (key : Key) {n : Int64}
    (hn : 0 ≤ n.toInt) : h.incrIntByChecked now key n = some (h.incrIntBy now key n) := by
  have hr := inInt64_toInt n
  have hlim : InInt64 (2 ^ 63 - 1 - n.toInt) := by
    have := hr.2
    constructor <;> omega
  unfold incrIntByChecked incrIntBy addInt
  cases hf : h.find key with
  | none => rfl
  | some obj =>
      dsimp only
      cases hp : obj.payload.asInt with
      | none => rfl
      | some val =>
          have hv := inInt64_toInt val
          simp only [checked_eq hlim (InInt64.toInt_ofInt hlim), Option.bind_eq_bind,
            Option.bind_some, InInt64.toInt_ofInt hlim, decide_eq_true_eq]
          by_cases hbad : val.toInt > 2 ^ 63 - 1 - n.toInt
          · rw [if_pos hbad, if_pos hbad]
          · have hsum : InInt64 (val.toInt + n.toInt) := by
              have := hv.1
              constructor <;> omega
            rw [if_neg hbad, if_neg hbad, checked_eq hsum (InInt64.toInt_add hsum)]
            rfl

theorem decrIntByChecked_eq (h : KVContainer) (now : Nat) (key : Key) {n : Int64}
    (hn : 0 ≤ n.toInt) : h.decrIntByChecked now key n = some (h.decrIntBy now key n) := by
  have hr := inInt64_toInt n
  have hneg : InInt64 (-n.toInt) := by
    have := hr.2
    constructor <;> omega
  have hlim : InInt64 (-2 ^ 63 + n.toInt) := by
    have := hr.2
    constructor <;> omega
  unfold decrIntByChecked decrIntBy addInt
  cases hf : h.find key with
  | none =>
      simp only [checked_eq hneg (InInt64.toInt_neg hneg), Option.bind_eq_bind, Option.bind_some]
  | some obj =>
      dsimp only
      cases hp : obj.payload.asInt with
      | none => rfl
      | some val =>
          have hv := inInt64_toInt val
          simp only [checked_eq hlim (InInt64.toInt_ofInt hlim), Option.bind_eq_bind,
            Option.bind_some, InInt64.toInt_ofInt hlim, decide_eq_true_eq]
          by_cases hbad : val.toInt < -2 ^ 63 + n.toInt
          · rw [if_pos hbad, if_pos hbad]
          · have hsum : InInt64 (val.toInt - n.toInt) := by
              have := hv.2
              constructor <;> omega
            have hval : (val + -n).toInt = val.toInt - n.toInt := by
              rw [← Int64.sub_eq_add_neg, hsum.toInt_sub]
            rw [if_neg hbad, if_neg hbad, checked_eq hsum hval]
            rfl

end KVContainer

/-! ## What the integer commands are for -/

/-- Adding an amount to what a key holds, and the reply. -/
def Cell.plus (d : Int) (c : Cell) : Cell × Bytes :=
  match c with
  | none => (some (.int (Int64.ofInt d)), packIntReply d)
  | some (.int n) =>
      if InInt64 (n.toInt + d) then
        (some (.int (Int64.ofInt (n.toInt + d))), packIntReply (n.toInt + d))
      else (c, kInt64OverflowMsg)
  | some _ => (c, kWrongTypeMsg)

/-- `IncrIntBy` and `DecrIntBy` add in `Int`, when the overflow test is exact. -/
theorem KVContainer.addInt_plus {h : KVContainer} (hok : h.Ok) (now : Nat) {key : Key}
    (hkey : key.Clean) {change : Int64} {bad : Int64 → Bool}
    (hbad : ∀ val, bad val = true ↔ ¬InInt64 (val.toInt + change.toInt)) :
    h.Acts key (fun c => (Cell.plus change.toInt c).1) (h.addInt now key change bad).1 ∧
      incrDecrReply (h.addInt now key change bad).2.1 (h.addInt now key change bad).2.2
        = (Cell.plus change.toInt (h.view key)).2 := by
  obtain ⟨hacts, -⟩ := addInt_acts hok now key hkey change bad
  have hin : ∀ val, bad val = false → InInt64 (val.toInt + change.toInt) := by
    intro val hb
    by_contra hout
    rw [(hbad val).mpr hout] at hb
    cases hb
  refine ⟨hacts.congr ?_, ?_⟩
  · cases h.view key with
    | none => simp [Cell.addInt, Cell.plus]
    | some v =>
        cases v with
        | int n =>
            cases hb : bad n with
            | true => simp [Cell.addInt, Cell.plus, Value.asInt, hb, (hbad n).mp hb]
            | false =>
                have hsum : Int64.ofInt (n.toInt + change.toInt) = n + change := by
                  rw [← InInt64.toInt_add (hin n hb), Int64.ofInt_toInt]
                simp [Cell.addInt, Cell.plus, Value.asInt, hb, hin n hb, hsum]
        | _ => rfl
  · unfold addInt
    cases hf : h.find key with
    | none => simp [view_of_find_none hf, incrDecrReply, Cell.plus]
    | some obj =>
        rw [view_of_find hf]
        cases hp : obj.payload with
        | int n =>
            cases hb : bad n with
            | true =>
                simp [hp, Payload.asInt, Payload.toValue, Cell.plus, hb, (hbad n).mp hb,
                  incrDecrReply]
            | false =>
                simp [hp, Payload.asInt, Payload.toValue, Cell.plus, hb, hin n hb, incrDecrReply,
                  InInt64.toInt_add (hin n hb)]
        | _ => simp [hp, Payload.asInt, Payload.toValue, Cell.plus, incrDecrReply]

theorem KVContainer.incrIntBy_plus {h : KVContainer} (hok : h.Ok) (now : Nat) {key : Key}
    (hkey : key.Clean) {n : Int64} (hn : 0 ≤ n.toInt) :
    h.Acts key (fun c => (Cell.plus n.toInt c).1) (h.incrIntBy now key n).1 ∧
      incrDecrReply (h.incrIntBy now key n).2.1 (h.incrIntBy now key n).2.2
        = (Cell.plus n.toInt (h.view key)).2 := by
  refine addInt_plus hok now hkey fun val => ?_
  have hv := inInt64_toInt val
  have := hv.1
  simp only [decide_eq_true_eq, InInt64]
  omega

theorem KVContainer.decrIntBy_plus {h : KVContainer} (hok : h.Ok) (now : Nat) {key : Key}
    (hkey : key.Clean) {n : Int64} (hn : 0 ≤ n.toInt) :
    h.Acts key (fun c => (Cell.plus (-n.toInt) c).1) (h.decrIntBy now key n).1 ∧
      incrDecrReply (h.decrIntBy now key n).2.1 (h.decrIntBy now key n).2.2
        = (Cell.plus (-n.toInt) (h.view key)).2 := by
  have hneg : (-n).toInt = -n.toInt := by
    have hr := inInt64_toInt n
    have := hr.2
    exact InInt64.toInt_neg (by constructor <;> omega)
  rw [← hneg]
  refine addInt_plus hok now hkey fun val => ?_
  have hv := inInt64_toInt val
  have := hv.2
  simp only [hneg, decide_eq_true_eq, InInt64]
  omega

/-! ## The amount of a request -/

theorem decimal_intToString {v : Int} (h : InInt64 v) : decimal (intToString v) = some v := by
  have hval : (if (intToString v).head? = some 45 then -(digitsVal (intToString v).tail : Int)
      else digitsVal (intToString v)) = v := by
    by_cases hv : v < 0
    · rw [intToString, if_pos hv]
      simp only [List.head?_cons, if_true, List.tail_cons, digitsVal_natToString]
      omega
    · rw [intToString, if_neg hv]
      have hhead : (natToString v.natAbs).head? ≠ some 45 := by
        intro h45
        have hdig := natToString_all_digit v.natAbs 45 (List.mem_of_mem_head? h45)
        exact absurd hdig (by decide)
      rw [if_neg hhead, digitsVal_natToString]
      omega
  rw [decimal, hval, if_pos ⟨rfl, h⟩]

theorem of_decimal {b : Bytes} {v : Int} (h : decimal b = some v) :
    b = intToString v ∧ InInt64 v := by
  rw [decimal] at h
  simp only [Option.ite_none_right_eq_some, Option.some.injEq] at h
  exact h.2 ▸ h.1

/-- `CanConvertToInt64` reads exactly the canonical decimals. -/
theorem decimal_eq (b : Bytes) : decimal b = (canConvertToInt64 b).map Int64.toInt := by
  cases hc : canConvertToInt64 b with
  | some n =>
      rw [canConvertToInt64_eq_some.mp hc, decimal_intToString (inInt64_toInt n)]
      rfl
  | none =>
      by_contra hne
      obtain ⟨v, hv⟩ := Option.ne_none_iff_exists'.mp hne
      obtain ⟨hb, hr⟩ := of_decimal hv
      rw [← InInt64.toInt_ofInt hr, ← canConvertToInt64_eq_some, hc] at hb
      cases hb

/-- The numbers `IncrDecrCommonHelper2` goes on with. -/
theorem filter_decimal_eq_some {word : Bytes} {d : Int} :
    ((decimal word).filter fun n => decide (0 ≤ n)) = some d ↔
      ∃ n, canConvertToInt64 word = some n ∧ 0 ≤ n.toInt ∧ n.toInt = d := by
  rw [decimal_eq, Option.filter_eq_some_iff, Option.map_eq_some_iff]
  constructor
  · rintro ⟨⟨n, hn, rfl⟩, hd⟩
    exact ⟨n, hn, by simpa using hd, rfl⟩
  · rintro ⟨n, hn, hd, rfl⟩
    exact ⟨⟨n, hn, rfl⟩, by simpa using hd⟩

/-! ## The handlers -/

section

variable {α : Type} (ctx : Ctx) (s : Engine) (argv : List Bytes)

theorem addIntoAppendable_holder : (s.addIntoAppendable ctx argv).holder = s.holder := by
  unfold Engine.addIntoAppendable
  split <;> rfl

theorem onKey_holder (op : KVContainer → Key → KVContainer × α × ErrCode)
    (logs : α → ErrCode → Bool) (reply : α → ErrCode → Bytes) :
    (onKey ctx s argv op logs reply).1.holder = (op s.holder (keyOf argv)).1 := by
  unfold onKey
  dsimp only
  split
  · exact addIntoAppendable_holder ctx _ argv
  · rfl

theorem onKey_reply (op : KVContainer → Key → KVContainer × α × ErrCode)
    (logs : α → ErrCode → Bool) (reply : α → ErrCode → Bytes) :
    (onKey ctx s argv op logs reply).2
      = .ok (reply (op s.holder (keyOf argv)).2.1 (op s.holder (keyOf argv)).2.2) := rfl

end

/-- The handler of an integer command, over the operations it calls. -/
def IntOp.handlerWith
    (incrIntBy decrIntBy : KVContainer → Nat → Key → Int64 → KVContainer × Int64 × ErrCode) :
    IntOp → Handler
  | incr => fun ctx s argv =>
      checkSyntaxHelper argv 1 0 false "incr" s (incrDecrCommonHelper incrIntBy ctx s argv)
  | decr => fun ctx s argv =>
      checkSyntaxHelper argv 1 0 false "decr" s (incrDecrCommonHelper decrIntBy ctx s argv)
  | incrby => fun ctx s argv =>
      checkSyntaxHelper argv 1 1 false "incrby" s (incrDecrCommonHelper2 incrIntBy ctx s argv)
  | decrby => fun ctx s argv =>
      checkSyntaxHelper argv 1 1 false "decrby" s (incrDecrCommonHelper2 decrIntBy ctx s argv)

/-- The handler over the checked operations; `ub` is what an overflow does. -/
def IntOp.handlerChecked (ub : KVContainer × Int64 × ErrCode) : IntOp → Handler :=
  handlerWith (fun h now key n => (h.incrIntByChecked now key n).getD ub)
    fun h now key n => (h.decrIntByChecked now key n).getD ub

theorem IntOp.handler_eq (op : IntOp) :
    op.opcode.handler = op.handlerWith KVContainer.incrIntBy KVContainer.decrIntBy := by
  cases op <;> rfl

/-- The handlers call their operation with 1 or with a number they have found
not to be negative. -/
theorem IntOp.handlerWith_congr
    {incr₁ decr₁ incr₂ decr₂ : KVContainer → Nat → Key → Int64 → KVContainer × Int64 × ErrCode}
    (hincr : ∀ h now key n, 0 ≤ Int64.toInt n → incr₁ h now key n = incr₂ h now key n)
    (hdecr : ∀ h now key n, 0 ≤ Int64.toInt n → decr₁ h now key n = decr₂ h now key n)
    (op : IntOp) : op.handlerWith incr₁ decr₁ = op.handlerWith incr₂ decr₂ := by
  have hone : ∀ {f g : KVContainer → Nat → Key → Int64 → KVContainer × Int64 × ErrCode},
      (∀ h now key n, 0 ≤ Int64.toInt n → f h now key n = g h now key n) →
      incrDecrCommonHelper f = incrDecrCommonHelper g := by
    intro f g hfg
    funext ctx s argv
    simp only [incrDecrCommonHelper, fun h now key => hfg h now key 1 (by decide)]
  have hnum : ∀ {f g : KVContainer → Nat → Key → Int64 → KVContainer × Int64 × ErrCode},
      (∀ h now key n, 0 ≤ Int64.toInt n → f h now key n = g h now key n) →
      incrDecrCommonHelper2 f = incrDecrCommonHelper2 g := by
    intro f g hfg
    funext ctx s argv
    unfold incrDecrCommonHelper2
    cases canConvertToInt64 (arg argv 2) with
    | none => rfl
    | some num =>
        by_cases hneg : num.toInt < 0
        · simp only [if_pos hneg]
        · simp only [if_neg hneg, fun h now key => hfg h now key num (by omega)]
  cases op with
  | incr => simp only [handlerWith, hone hincr]
  | decr => simp only [handlerWith, hone hdecr]
  | incrby => simp only [handlerWith, hnum hincr]
  | decrby => simp only [handlerWith, hnum hdecr]

/-- Whatever an overflow does, the integer commands do not meet one. -/
theorem IntOp.handlerChecked_eq (ub : KVContainer × Int64 × ErrCode) (op : IntOp) :
    op.handlerChecked ub = op.opcode.handler := by
  rw [op.handler_eq, handlerChecked]
  refine handlerWith_congr ?_ ?_ op
  · intro h now key n hn
    rw [KVContainer.incrIntByChecked_eq h now key hn, Option.getD_some]
  · intro h now key n hn
    rw [KVContainer.decrIntByChecked_eq h now key hn, Option.getD_some]

/-- The outcome of a request that adds `d` to what the key holds. -/
structure Adds (key : Bytes) (d : Int) (s : Engine) (out : Engine × Reply) : Prop where
  acts : s.holder.Acts (.ofStdString key) (fun c => (Cell.plus d c).1) out.1.holder
  reply : out.2 = .ok (Cell.plus d (s.holder.view (.ofStdString key))).2

section

variable {s : Engine} (ctx : Ctx) (argv : List Bytes) {n : Int64} {d : Int}
  {operation : KVContainer → Nat → Key → Int64 → KVContainer × Int64 × ErrCode}
  (hop : s.holder.Acts (keyOf argv) (fun c => (Cell.plus d c).1)
      (operation s.holder ctx.now (keyOf argv) n).1 ∧
    incrDecrReply (operation s.holder ctx.now (keyOf argv) n).2.1
      (operation s.holder ctx.now (keyOf argv) n).2.2
      = (Cell.plus d (s.holder.view (keyOf argv))).2)

include hop

theorem onKey_adds : Adds (arg argv 1) d s
    (onKey ctx s argv (fun h key => operation h ctx.now key n) (fun _ code => code == .ok)
      incrDecrReply) := by
  constructor
  · rw [onKey_holder]
    exact hop.1
  · rw [onKey_reply]
    exact congrArg _ hop.2

/-- `IncrDecrCommonHelper2` on a canonical decimal. -/
theorem incrDecrCommonHelper2_adds (hw : canConvertToInt64 (arg argv 2) = some n)
    (hn : 0 ≤ n.toInt) : Adds (arg argv 1) d s (incrDecrCommonHelper2 operation ctx s argv) := by
  unfold incrDecrCommonHelper2
  rw [hw]
  dsimp only
  rw [if_neg (by omega)]
  exact onKey_adds ctx argv hop

end

/-- The requests with an amount. -/
theorem IntOp.amount_cases {op : IntOp} {words : List Bytes} {d : Int}
    (h : op.amount words = some d) :
    (op = incr ∧ words = [] ∧ d = 1) ∨ (op = decr ∧ words = [] ∧ d = -1) ∨
      (∃ word n, op = incrby ∧ words = [word] ∧
        canConvertToInt64 word = some n ∧ 0 ≤ n.toInt ∧ d = n.toInt) ∨
      ∃ word n, op = decrby ∧ words = [word] ∧
        canConvertToInt64 word = some n ∧ 0 ≤ n.toInt ∧ d = -n.toInt := by
  unfold amount at h
  split at h
  · cases h
    exact .inl ⟨rfl, rfl, rfl⟩
  · cases h
    exact .inr (.inl ⟨rfl, rfl, rfl⟩)
  · obtain ⟨n, hn, hpos, rfl⟩ := filter_decimal_eq_some.mp h
    exact .inr (.inr (.inl ⟨_, n, rfl, rfl, hn, hpos, rfl⟩))
  · obtain ⟨m, hm, rfl⟩ := Option.map_eq_some_iff.mp h
    obtain ⟨n, hn, hpos, rfl⟩ := filter_decimal_eq_some.mp hm
    exact .inr (.inr (.inr ⟨_, n, rfl, rfl, hn, hpos, rfl⟩))
  · cases h

/-- A request with an amount adds it to what the key holds. -/
theorem serve_adds {s : Engine} (hok : s.holder.Ok) (key : Bytes) (r : KeyRequest IntOp) {d : Int}
    (hd : r.op.amount r.words = some d) : Adds key d s (r.serve IntOp.opcode key s) := by
  obtain ⟨ctx, op, words⟩ := r
  have hkey := StaticString.ofStdString_clean key
  obtain ⟨hop, hw, rfl⟩ | ⟨hop, hw, rfl⟩ | ⟨word, n, hop, hw, hn, hpos, rfl⟩ |
    ⟨word, n, hop, hw, hn, hpos, rfl⟩ := IntOp.amount_cases hd
  all_goals dsimp only at hop hw; subst hop; subst hw
  · exact onKey_adds ctx [ascii "incr", key]
      (KVContainer.incrIntBy_plus hok ctx.now hkey (n := 1) (by decide))
  · exact onKey_adds ctx [ascii "decr", key]
      (KVContainer.decrIntBy_plus hok ctx.now hkey (n := 1) (by decide))
  · exact incrDecrCommonHelper2_adds ctx [ascii "incrby", key, word]
      (KVContainer.incrIntBy_plus hok ctx.now hkey hpos) hn hpos
  · exact incrDecrCommonHelper2_adds ctx [ascii "decrby", key, word]
      (KVContainer.decrIntBy_plus hok ctx.now hkey hpos) hn hpos

theorem refused_cons (b : Bytes) : Reply.refused (.ok (45 :: b)) = true := rfl

/-- The number of words behind the key. -/
def IntOp.operands : IntOp → Nat
  | incr | decr => 0
  | incrby | decrby => 1

theorem serve_syntax (s : Engine) (key : Bytes) (r : KeyRequest IntOp)
    (h : r.words.length ≠ r.op.operands) :
    ∃ name, r.serve IntOp.opcode key s = (s, .ok (syntaxErrMsg name)) := by
  obtain ⟨ctx, op, words⟩ := r
  have hcheck : ∀ (name : Bytes) (n : Nat), words.length ≠ n →
      ¬checkSyntax (name :: key :: words) 1 n false = true := by
    intro name n hn hc
    rw [checkSyntax_operands] at hc
    simp only [List.length_cons] at hc
    omega
  cases op with
  | incr => exact ⟨"incr", if_neg (hcheck _ 0 h)⟩
  | decr => exact ⟨"decr", if_neg (hcheck _ 0 h)⟩
  | incrby => exact ⟨"incrby", if_neg (hcheck _ 1 h)⟩
  | decrby => exact ⟨"decrby", if_neg (hcheck _ 1 h)⟩

/-- `IncrDecrCommonHelper2` refuses what is not a canonical decimal from 0 on. -/
theorem incrDecrCommonHelper2_refuses (ctx : Ctx) (s : Engine) (argv : List Bytes)
    (h : ((decimal (arg argv 2)).filter fun n => decide (0 ≤ n)) = none)
    (operation : KVContainer → Nat → Key → Int64 → KVContainer × Int64 × ErrCode) :
    incrDecrCommonHelper2 operation ctx s argv = (s, .ok kInvalidIntegerMsg) := by
  unfold incrDecrCommonHelper2
  cases hc : canConvertToInt64 (arg argv 2) with
  | none => rfl
  | some n =>
      dsimp only
      by_cases hn : n.toInt < 0
      · rw [if_pos hn]
      · rw [filter_decimal_eq_some.mpr ⟨n, hc, by omega, rfl⟩] at h
        cases h

/-- A request without one is refused. -/
theorem serve_refuses (s : Engine) (key : Bytes) (r : KeyRequest IntOp)
    (hd : r.op.amount r.words = none) :
    (r.serve IntOp.opcode key s).1 = s ∧ (r.serve IntOp.opcode key s).2.refused = true := by
  by_cases hl : r.words.length = r.op.operands
  · have hinvalid : r.serve IntOp.opcode key s = (s, .ok kInvalidIntegerMsg) := by
      obtain ⟨ctx, op, words⟩ := r
      cases op with
      | incr =>
          cases List.length_eq_zero_iff.mp hl
          cases hd
      | decr =>
          cases List.length_eq_zero_iff.mp hl
          cases hd
      | incrby =>
          obtain ⟨word, hw⟩ := List.length_eq_one_iff.mp hl
          dsimp only at hw
          subst hw
          exact incrDecrCommonHelper2_refuses ctx s [ascii "incrby", key, word] hd _
      | decrby =>
          obtain ⟨word, hw⟩ := List.length_eq_one_iff.mp hl
          dsimp only at hw
          subst hw
          exact incrDecrCommonHelper2_refuses ctx s [ascii "decrby", key, word]
            (Option.map_eq_none_iff.mp hd) _
    rw [hinvalid]
    exact ⟨rfl, refused_cons _⟩
  · obtain ⟨name, hname⟩ := serve_syntax s key r hl
    rw [hname]
    exact ⟨rfl, refused_cons _⟩

/-! ## Runs of integer commands -/

/-- The number a key holds; a key that is not there counts as 0. -/
def Cell.number : Cell → Option Int
  | none => some 0
  | some (.int n) => some n.toInt
  | some _ => none

/-- The amounts of the requests that were answered with a number. -/
def applied (rs : List (KeyRequest IntOp)) (replies : List Reply) : List Int :=
  (rs.zip replies).filterMap fun x =>
    if x.2.succeeded then x.1.op.amount x.1.words else none

theorem IntOp.amount_inInt64 {op : IntOp} {words : List Bytes} {d : Int}
    (h : op.amount words = some d) : InInt64 d := by
  obtain ⟨-, -, rfl⟩ | ⟨-, -, rfl⟩ | ⟨word, n, -, -, -, hpos, rfl⟩ | ⟨word, n, -, -, -, hpos,
      rfl⟩ :=
    amount_cases h
  · decide
  · decide
  · exact inInt64_toInt n
  · have hr := inInt64_toInt n
    have := hr.2
    constructor <;> omega

theorem Cell.plus_of_fits {c : Cell} {v d : Int} (hc : Cell.number c = some v)
    (h : InInt64 (v + d)) :
    Cell.plus d c = (some (.int (Int64.ofInt (v + d))), packIntReply (v + d)) := by
  cases c with
  | none =>
      cases hc
      simp [plus]
  | some x =>
      cases x with
      | int n =>
          cases hc
          simp [plus, h]
      | _ => cases hc

theorem Cell.plus_of_overflow {c : Cell} {v d : Int} (hc : Cell.number c = some v)
    (hd : InInt64 d) (h : ¬InInt64 (v + d)) : Cell.plus d c = (c, kInt64OverflowMsg) := by
  cases c with
  | none =>
      cases hc
      rw [Int.zero_add] at h
      exact absurd hd h
  | some x =>
      cases x with
      | int n =>
          cases hc
          simp [plus, h]
      | _ => cases hc

@[simp] theorem succeeded_packIntReply (v : Int) : Reply.succeeded (.ok (packIntReply v)) = true :=
  rfl

theorem not_succeeded_of_refused {p : Reply} (h : p.refused = true) : p.succeeded = false := by
  unfold Reply.refused at h
  unfold Reply.succeeded
  split at h
  · rw [beq_iff_eq] at h
    subst h
    rfl
  · cases h

section

variable {s : Engine} (hok : s.holder.Ok) (key : Bytes) {v : Int}
  (hv : Cell.number (s.holder.view (.ofStdString key)) = some v) (r : KeyRequest IntOp)

include hok hv

/-- A request whose exact result fits. -/
theorem serve_fits {d : Int} (hd : r.op.amount r.words = some d) (hfit : InInt64 (v + d)) :
    (r.serve IntOp.opcode key s).1.holder.Ok ∧
      (r.serve IntOp.opcode key s).2 = .ok (packIntReply (v + d)) ∧
      (r.serve IntOp.opcode key s).1.holder.view (.ofStdString key)
        = some (.int (Int64.ofInt (v + d))) := by
  have hadds := serve_adds hok key r hd
  have hplus := Cell.plus_of_fits hv hfit
  refine ⟨hadds.acts.1, ?_, ?_⟩
  · rw [hadds.reply, hplus]
  · rw [hadds.acts.2, Function.update_self]
    exact congrArg Prod.fst hplus

/-- Any other request. -/
theorem serve_keeps (hno : ∀ d, r.op.amount r.words = some d → ¬InInt64 (v + d)) :
    (r.serve IntOp.opcode key s).1.holder.Ok ∧
      (r.serve IntOp.opcode key s).2.refused = true ∧
      (r.serve IntOp.opcode key s).1.holder.view = s.holder.view := by
  cases hd : r.op.amount r.words with
  | none =>
      obtain ⟨hs, hr⟩ := serve_refuses s key r hd
      rw [hs]
      exact ⟨hok, hr, rfl⟩
  | some d =>
      have hadds := serve_adds hok key r hd
      have hplus := Cell.plus_of_overflow hv (IntOp.amount_inInt64 hd) (hno d hd)
      refine ⟨hadds.acts.1, ?_, ?_⟩
      · rw [hadds.reply, hplus]
        rfl
      · rw [hadds.acts.2]
        dsimp only
        rw [hplus, Function.update_eq_self]

/-- One request moves the number by its amount, if it was answered with a
number. -/
theorem serve_number : (r.serve IntOp.opcode key s).1.holder.Ok ∧
    Cell.number ((r.serve IntOp.opcode key s).1.holder.view (.ofStdString key))
      = some (v + (applied [r] [(r.serve IntOp.opcode key s).2]).sum) := by
  by_cases hfit : ∃ d, r.op.amount r.words = some d ∧ InInt64 (v + d)
  · obtain ⟨d, hd, hfit⟩ := hfit
    obtain ⟨h1, h2, h3⟩ := serve_fits hok key hv r hd hfit
    refine ⟨h1, ?_⟩
    rw [h3, h2, Cell.number, InInt64.toInt_ofInt hfit]
    simp [applied, hd]
  · obtain ⟨h1, h2, h3⟩ := serve_keeps hok key hv r fun d hd hin => hfit ⟨d, hd, hin⟩
    refine ⟨h1, ?_⟩
    rw [h3, hv]
    simp [applied, not_succeeded_of_refused h2]

end

theorem applied_cons (r : KeyRequest IntOp) (rs : List (KeyRequest IntOp)) (p : Reply)
    (ps : List Reply) : (applied (r :: rs) (p :: ps)).sum
      = (applied [r] [p]).sum + (applied rs ps).sum := by
  simp only [applied, List.zip_cons_cons, List.zip_nil_left, List.filterMap_cons]
  split <;> simp

/-- A run of integer commands moves the number by the amounts of those that
succeeded. -/
theorem run_number (key : Bytes) (rs : List (KeyRequest IntOp)) :
    ∀ {s : Engine} {v : Int}, s.holder.Ok →
      Cell.number (s.holder.view (.ofStdString key)) = some v →
      (Run.trace (KeyRequest.serve IntOp.opcode key) s rs).1.holder.Ok ∧
        Cell.number ((Run.trace (KeyRequest.serve IntOp.opcode key) s rs).1.holder.view
            (.ofStdString key))
          = some (v + (applied rs (Run.trace (KeyRequest.serve IntOp.opcode key) s rs).2).sum) := by
  induction rs with
  | nil =>
      intro s v hok hv
      simpa [applied] using ⟨hok, hv⟩
  | cons r rs ih =>
      intro s v hok hv
      obtain ⟨hok', hv'⟩ := serve_number hok key hv r
      obtain ⟨hok'', hv''⟩ := ih hok' hv'
      refine ⟨hok'', ?_⟩
      simp only [Run.trace_cons]
      rw [hv'', applied_cons r rs, Int.add_assoc]

/-- The run over the checked operations. -/
def KeyRequest.serveChecked (ub : KVContainer × Int64 × ErrCode) (key : Bytes) (s : Engine)
    (r : KeyRequest IntOp) : Engine × Reply :=
  r.op.handlerChecked ub r.ctx s (r.op.opcode.name :: key :: r.words)

/-- After any run of integer commands the key holds the sum of its first number
and the amounts that succeeded; the next command gives the exact result or is
refused and changes nothing; and no operation has overflowed. -/
theorem integer_commands_exact {s : Engine} (hok : s.holder.Ok) (key : Bytes) {v : Int}
    (hv : Cell.number (s.holder.view (.ofStdString key)) = some v)
    (rs : List (KeyRequest IntOp)) (r : KeyRequest IntOp) :
    let run := Run.trace (KeyRequest.serve IntOp.opcode key) s rs
    let sum := v + (applied rs run.2).sum
    let out := r.serve IntOp.opcode key run.1
    Cell.number (run.1.holder.view (.ofStdString key)) = some sum ∧
    (∀ d, r.op.amount r.words = some d → InInt64 (sum + d) →
      out.2 = .ok (packIntReply (sum + d)) ∧
      ∃ n : Int64, out.1.holder.view (.ofStdString key) = some (.int n) ∧ n.toInt = sum + d) ∧
    ((∀ d, r.op.amount r.words = some d → ¬InInt64 (sum + d)) →
      out.2.refused = true ∧ out.1.holder.view = run.1.holder.view) ∧
    ∀ ub, Run.trace (KeyRequest.serveChecked ub key) s rs = run ∧
      r.serveChecked ub key run.1 = out := by
  intro run sum out
  obtain ⟨hok', hv'⟩ := run_number key rs hok hv
  refine ⟨hv', ?_, ?_, ?_⟩
  · intro d hd hfit
    obtain ⟨-, hreply, hview⟩ := serve_fits hok' key hv' r hd hfit
    exact ⟨hreply, _, hview, InInt64.toInt_ofInt hfit⟩
  · intro hno
    obtain ⟨-, hrefused, hview⟩ := serve_keeps hok' key hv' r hno
    exact ⟨hrefused, hview⟩
  · intro ub
    have hserve : KeyRequest.serveChecked ub key = KeyRequest.serve IntOp.opcode key := by
      funext s r
      rw [KeyRequest.serveChecked, IntOp.handlerChecked_eq]
      rfl
    rw [hserve]
    exact ⟨rfl, rfl⟩

/-- `incrby a 9223372036854775807`. -/
def fillCounter : KeyRequest IntOp := ⟨calm, .incrby, [ascii "9223372036854775807"]⟩

/-- A full counter refuses one more. -/
theorem integer_commands_exact_full :
    Cell.number (Engine.new.holder.view (.ofStdString [97])) = some 0 ∧
      (KeyRequest.serve IntOp.opcode [97]
        (Run.trace (KeyRequest.serve IntOp.opcode [97]) Engine.new [fillCounter]).1
        ⟨calm, .incr, []⟩).2.refused = true := by
  have hzero : Cell.number (Engine.new.holder.view (.ofStdString [97])) = some 0 := by
    rw [Engine.new, KVContainer.view_new]
    rfl
  refine ⟨hzero, ?_⟩
  obtain ⟨-, -, hrefuse, -⟩ := integer_commands_exact KVContainer.ok_new [97] hzero [fillCounter]
    ⟨calm, .incr, []⟩
  have hsum : (applied [fillCounter]
      (Run.trace (KeyRequest.serve IntOp.opcode [97]) Engine.new [fillCounter]).2).sum
        = 2 ^ 63 - 1 := by decide +kernel
  refine (hrefuse fun d hd => ?_).1
  cases hd
  rw [hsum]
  decide

end LiteKV
