/-
LiteKV.Net.WrongTypeTheorems — a command on a key of a type it is not defined
for.

`Opcode.takes` says which values a data command is defined for. On any other
value its operation gives the container back with `wrongType`, one lemma for
each shape of operation, and the handler turns the code into the reply:
`handler_rejects`. Two paths lose the code. `StrLen` compares `errcode` with
`kWrongTypeCode` where it should assign it, and `hget` of several fields
replies from the values alone.
-/
import LiteKV.CoreTheorems
import LiteKV.Net.CommandsTheorems

namespace LiteKV

open Lib Lib.AssocList

/-- An integer or a string. -/
def Value.isText : Value → Bool
  | .int _ | .string _ => true
  | _ => false

/-- The values a data command is defined for. -/
def Opcode.takes : Opcode → Option (Value → Bool)
  | .get | .strlen | .append => some Value.isText
  | .incr | .decr | .incrby | .decrby => some fun v => v.asInt.isSome
  | .llen | .lpop | .rpop | .lpush | .rpush | .lrange | .lindex | .lsetindex =>
      some fun v => v.asList.isSome
  | .hset | .hget | .hdel | .hexists | .hgetall | .hkeys | .hvals | .hlen =>
      some fun v => v.asHash.isSome
  | .sadd | .sismember | .smismember | .smembers | .srem | .scard => some fun v => v.asSet.isSome
  | _ => none

/-- The third word is an integer that is not negative. -/
def isCount (word : Bytes) : Bool :=
  match canConvertToInt64 word with
  | none => false
  | some n => decide (0 ≤ n.toInt)

/-- The right number of arguments, and integers where they are expected; the
arguments are the words behind the opcode, the key first. -/
def Opcode.wellFormed (op : Opcode) (args : List Bytes) : Bool :=
  match op with
  | .get | .strlen | .incr | .decr | .llen | .lpop | .rpop | .hgetall | .hkeys | .hvals | .hlen
  | .smembers | .scard => args.length = 1
  | .append | .hexists | .sismember => args.length = 2
  | .incrby | .decrby => args.length = 2 && isCount (arg args 1)
  | .lindex => args.length = 2 && (canConvertToInt32 (arg args 1)).isSome
  | .lrange => args.length = 3 && (canConvertToInt32 (arg args 1)).isSome &&
      (canConvertToInt32 (arg args 2)).isSome
  | .lsetindex => args.length = 3 && (canConvertToInt32 (arg args 1)).isSome
  | .lpush | .rpush | .hget | .hdel | .sadd | .smismember | .srem => 2 ≤ args.length
  | .hset => 2 ≤ args.length && args.length % 2 = 1
  | _ => false

/-! ## The operations -/

namespace KVContainer

/-- A type the value does not have, read off the payload. -/
theorem Compatible.absent {α α' : Type} {proj : Payload → Option α} {proj' : Value → Option α'}
    {abs : α → α'} (hc : Compatible proj proj' abs) {p : Payload}
    (h : (proj' p.toValue).isSome = false) : proj p = none := by
  rw [hc p, Option.isSome_map] at h
  exact Option.not_isSome_iff_eq_none.mp (by simp only [h, Bool.false_eq_true, not_false_eq_true])

section

variable {h : KVContainer} {key : Key} {obj : ValueObject} (hf : h.find key = some obj) (now : Nat)

include hf

theorem onType_wrong {α β : Type} {proj : Payload → Option α} (hp : proj obj.payload = none)
    (missing : β) (f : α → Payload × β) :
    h.onType proj now key missing f = (h, missing, .wrongType) := by
  simp only [onType, hf, hp]

theorem createOrOnType_wrong {α β : Type} {proj : Payload → Option α} (hp : proj obj.payload = none)
    (fresh : α) (missing : β) (f : α → Payload × β) :
    h.createOrOnType proj fresh now key missing f = (h, missing, .wrongType) := by
  simp only [createOrOnType, hf, hp]

theorem addInt_wrong (hp : obj.payload.asInt = none) (change : Int64) (bad : Int64 → Bool) :
    h.addInt now key change bad = (h, 0, .wrongType) := by
  simp only [addInt, hf, hp]

theorem get_wrong (hp : obj.payload.toValue.isText = false) :
    h.get now key = (h, none, .wrongType) := by
  rw [get, hf]
  cases hpl : obj.payload <;> simp_all [Payload.toValue, Value.isText]

theorem append_wrong (hp : obj.payload.toValue.isText = false) (val : Bytes) :
    h.append now key val = (h, 0, .wrongType) := by
  rw [append, hf]
  cases hpl : obj.payload <;> simp_all [Payload.toValue, Value.isText]

/-- `StrLen` leaves its code unset. -/
theorem strLen_wrong (hp : obj.payload.toValue.isText = false) :
    h.strLen now key = (h, 0, .unset) := by
  rw [strLen, hf]
  cases hpl : obj.payload <;> simp_all [Payload.toValue, Value.isText]

theorem listItemAtIndex_wrong (hp : obj.payload.asList = none) (index : Int) :
    h.listItemAtIndex now key index = (h, none, .wrongType) := by
  simp only [listItemAtIndex, hf, hp]

theorem listSetItemAtIndex_wrong (hp : obj.payload.asList = none) (index : Int) (val : Bytes) :
    h.listSetItemAtIndex now key index val = (h, false, .wrongType) := by
  simp only [listSetItemAtIndex, hf, hp]

theorem listRange_wrong (hp : obj.payload.asList = none) (begin_ end_ : Int) :
    h.listRange now key begin_ end_ = (h, .ok [], .wrongType) := by
  simp only [listRange, listRangeCommonOperation, hf, hp]

theorem hashGetValue_wrong (hp : obj.payload.asHash = none) (field : Bytes) :
    h.hashGetValue now key field = (h, none, .wrongType) := by
  simp only [hashGetValue, onType_wrong hf now hp]

theorem setMIsMember_wrong (hp : obj.payload.asSet = none) (members : List Bytes) :
    h.setMIsMember now key members = (h, [], .wrongType) := by
  simp only [setMIsMember, hf, onType_wrong hf now hp]

theorem setRemoveMembersByName_wrong (hp : obj.payload.asSet = none) (members : List Bytes) :
    h.setRemoveMembersByName now key members = (h, false, .wrongType) := by
  simp only [setRemoveMembersByName, setRemoveMembers, onType_wrong hf now hp]
  rfl

end

end KVContainer

/-! ## The handlers -/

section

variable {ctx : Ctx} {s : Engine} {argv : List Bytes}

theorem readKey_rejects {α : Type} {op : KVContainer → Key → KVContainer × α × ErrCode}
    {reply : α → ErrCode → Bytes} {missing : α}
    (h : op s.holder (keyOf argv) = (s.holder, missing, .wrongType))
    (hr : reply missing .wrongType = kWrongTypeMsg) :
    readKey s argv op reply = (s, .ok kWrongTypeMsg) := by
  rw [readKey, show StaticString.ofStdString (arg argv 1) = keyOf argv from rfl]
  simp only [h, hr]

theorem onKey_rejects {α : Type} {op : KVContainer → Key → KVContainer × α × ErrCode}
    {logs : α → ErrCode → Bool} {reply : α → ErrCode → Bytes} {missing : α}
    (h : op s.holder (keyOf argv) = (s.holder, missing, .wrongType))
    (hl : logs missing .wrongType = false) (hr : reply missing .wrongType = kWrongTypeMsg) :
    onKey ctx s argv op logs reply = (s, .ok kWrongTypeMsg) := by
  rw [onKey, show StaticString.ofStdString (arg argv 1) = keyOf argv from rfl]
  simp only [h, hl, hr]
  rfl

theorem byNumber_rejects {op : KVContainer → Nat → Key → Int64 → KVContainer × Int64 × ErrCode}
    (hc : isCount (arg argv 2) = true)
    (h : ∀ n, op s.holder ctx.now (keyOf argv) n = (s.holder, 0, .wrongType)) :
    incrDecrCommonHelper2 op ctx s argv = (s, .ok kWrongTypeMsg) := by
  rw [isCount] at hc
  rw [incrDecrCommonHelper2]
  cases hn : canConvertToInt64 (arg argv 2) with
  | none =>
      rw [hn] at hc
      cases hc
  | some n =>
      rw [hn] at hc
      have hpos : ¬ n.toInt < 0 := not_lt.mpr (of_decide_eq_true hc)
      simp only [if_neg hpos]
      exact onKey_rejects (h n) rfl rfl

variable {w : Bytes} {args : List Bytes}

theorem arg_cons (i : Nat) : arg (w :: args) (i + 1) = arg args i := rfl

theorem syntax_exact {n : Nat} (h : args.length = n + 1) :
    checkSyntax (w :: args) 1 n false = true := by
  have hn : ¬ (n : Int) = -1 := by omega
  simp [checkSyntax, h, hn]
  omega

theorem syntax_many (h : 2 ≤ args.length) : checkSyntax (w :: args) 1 (-1) false = true := by
  simp [checkSyntax, h]

theorem syntax_pairs (h : 2 ≤ args.length) (ho : args.length % 2 = 1) :
    checkSyntax (w :: args) 1 (-1) true = true := by
  have heven : (args.length + 1) % 2 = 0 := by omega
  simp [checkSyntax, h, heven]

theorem syntax_run {nKey nOp : Int} {even : Bool} {name : String} {body : Engine × Reply}
    (h : checkSyntax argv nKey nOp even = true) :
    checkSyntaxHelper argv nKey nOp even name s body = body := if_pos h

end

/-- The paths that lose the code. -/
def Opcode.forgets (op : Opcode) (args : List Bytes) : Prop :=
  op = .strlen ∨ op = .hget ∧ args.length ≠ 2

/-- Every other handler rejects, and changes nothing. -/
theorem handler_rejects {ctx : Ctx} {s : Engine} {op : Opcode} {args : List Bytes}
    (hwf : op.wellFormed args = true) {takes : Value → Bool} (ht : op.takes = some takes)
    {obj : ValueObject} (hf : s.holder.find (.ofStdString (arg args 0)) = some obj)
    (hT : takes obj.payload.toValue = false) (hne : ¬ op.forgets args) :
    op.handler ctx s (op.name :: args) = (s, .ok kWrongTypeMsg) := by
  cases op with
  | get =>
      cases ht
      exact (syntax_run (syntax_exact (of_decide_eq_true hwf))).trans
        (readKey_rejects (KVContainer.get_wrong hf _ hT) rfl)
  | strlen => exact absurd (Or.inl rfl) hne
  | append =>
      cases ht
      exact (syntax_run (syntax_exact (of_decide_eq_true hwf))).trans
        (onKey_rejects (KVContainer.append_wrong hf _ hT _) rfl rfl)
  | incr =>
      cases ht
      exact (syntax_run (syntax_exact (of_decide_eq_true hwf))).trans
        (onKey_rejects
          (KVContainer.addInt_wrong hf _ (KVContainer.compatible_int.absent hT) _ _) rfl rfl)
  | decr =>
      cases ht
      exact (syntax_run (syntax_exact (of_decide_eq_true hwf))).trans
        (onKey_rejects
          (KVContainer.addInt_wrong hf _ (KVContainer.compatible_int.absent hT) _ _) rfl rfl)
  | incrby =>
      cases ht
      simp only [Opcode.wellFormed, Bool.and_eq_true, decide_eq_true_eq] at hwf
      exact (syntax_run (syntax_exact hwf.1)).trans
        (byNumber_rejects hwf.2 fun n =>
          KVContainer.addInt_wrong hf _ (KVContainer.compatible_int.absent hT) _ _)
  | decrby =>
      cases ht
      simp only [Opcode.wellFormed, Bool.and_eq_true, decide_eq_true_eq] at hwf
      exact (syntax_run (syntax_exact hwf.1)).trans
        (byNumber_rejects hwf.2 fun n =>
          KVContainer.addInt_wrong hf _ (KVContainer.compatible_int.absent hT) _ _)
  | llen =>
      cases ht
      exact (syntax_run (syntax_exact (of_decide_eq_true hwf))).trans
        (readKey_rejects
          (KVContainer.onType_wrong hf _ (KVContainer.compatible_list.absent hT) _ _) rfl)
  | lpop =>
      cases ht
      exact (syntax_run (syntax_exact (of_decide_eq_true hwf))).trans
        (onKey_rejects
          (KVContainer.onType_wrong hf _ (KVContainer.compatible_list.absent hT) _ _) rfl rfl)
  | rpop =>
      cases ht
      exact (syntax_run (syntax_exact (of_decide_eq_true hwf))).trans
        (onKey_rejects
          (KVContainer.onType_wrong hf _ (KVContainer.compatible_list.absent hT) _ _) rfl rfl)
  | lpush =>
      cases ht
      exact (syntax_run (syntax_many (of_decide_eq_true hwf))).trans
        (onKey_rejects (KVContainer.createOrOnType_wrong hf _
          (KVContainer.compatible_list.absent hT) _ _ _) rfl rfl)
  | rpush =>
      cases ht
      exact (syntax_run (syntax_many (of_decide_eq_true hwf))).trans
        (onKey_rejects (KVContainer.createOrOnType_wrong hf _
          (KVContainer.compatible_list.absent hT) _ _ _) rfl rfl)
  | lrange =>
      cases ht
      simp only [Opcode.wellFormed, Bool.and_eq_true, decide_eq_true_eq] at hwf
      obtain ⟨b, hb⟩ := Option.isSome_iff_exists.mp hwf.1.2
      obtain ⟨e, he⟩ := Option.isSome_iff_exists.mp hwf.2
      refine (syntax_run (syntax_exact hwf.1.1)).trans ?_
      rw [arg_cons, arg_cons, hb, he]
      dsimp only
      rw [arg_cons,
        KVContainer.listRange_wrong hf ctx.now (KVContainer.compatible_list.absent hT) b e]
      rfl
  | lindex =>
      cases ht
      simp only [Opcode.wellFormed, Bool.and_eq_true, decide_eq_true_eq] at hwf
      obtain ⟨i, hi⟩ := Option.isSome_iff_exists.mp hwf.2
      refine (syntax_run (syntax_exact hwf.1)).trans ?_
      rw [arg_cons, hi]
      exact readKey_rejects
        (KVContainer.listItemAtIndex_wrong hf _ (KVContainer.compatible_list.absent hT) _) rfl
  | lsetindex =>
      cases ht
      simp only [Opcode.wellFormed, Bool.and_eq_true, decide_eq_true_eq] at hwf
      obtain ⟨i, hi⟩ := Option.isSome_iff_exists.mp hwf.2
      refine (syntax_run (syntax_exact hwf.1)).trans ?_
      rw [arg_cons, hi]
      exact onKey_rejects (KVContainer.listSetItemAtIndex_wrong hf _
        (KVContainer.compatible_list.absent hT) _ _) rfl rfl
  | hset =>
      cases ht
      simp only [Opcode.wellFormed, Bool.and_eq_true, decide_eq_true_eq] at hwf
      exact (syntax_run (syntax_pairs hwf.1 hwf.2)).trans
        (onKey_rejects (KVContainer.createOrOnType_wrong hf _
          (KVContainer.compatible_hash.absent hT) _ _ _) rfl rfl)
  | hget =>
      cases ht
      have h2 : args.length = 2 := by
        by_contra hlen
        exact hne (Or.inr ⟨rfl, hlen⟩)
      refine (syntax_run (syntax_many (of_decide_eq_true hwf))).trans ?_
      rw [if_pos (by simp [h2])]
      exact readKey_rejects
        (KVContainer.hashGetValue_wrong hf _ (KVContainer.compatible_hash.absent hT) _) rfl
  | hdel =>
      cases ht
      exact (syntax_run (syntax_many (of_decide_eq_true hwf))).trans
        (onKey_rejects
          (KVContainer.onType_wrong hf _ (KVContainer.compatible_hash.absent hT) _ _) rfl rfl)
  | hexists =>
      cases ht
      exact (syntax_run (syntax_exact (of_decide_eq_true hwf))).trans
        (readKey_rejects
          (KVContainer.onType_wrong hf _ (KVContainer.compatible_hash.absent hT) _ _) rfl)
  | hgetall =>
      cases ht
      exact (syntax_run (syntax_exact (of_decide_eq_true hwf))).trans
        (readKey_rejects
          (KVContainer.onType_wrong hf _ (KVContainer.compatible_hash.absent hT) _ _) rfl)
  | hkeys =>
      cases ht
      exact (syntax_run (syntax_exact (of_decide_eq_true hwf))).trans
        (readKey_rejects
          (KVContainer.onType_wrong hf _ (KVContainer.compatible_hash.absent hT) _ _) rfl)
  | hvals =>
      cases ht
      exact (syntax_run (syntax_exact (of_decide_eq_true hwf))).trans
        (readKey_rejects
          (KVContainer.onType_wrong hf _ (KVContainer.compatible_hash.absent hT) _ _) rfl)
  | hlen =>
      cases ht
      exact (syntax_run (syntax_exact (of_decide_eq_true hwf))).trans
        (readKey_rejects
          (KVContainer.onType_wrong hf _ (KVContainer.compatible_hash.absent hT) _ _) rfl)
  | sadd =>
      cases ht
      exact (syntax_run (syntax_many (of_decide_eq_true hwf))).trans
        (onKey_rejects (KVContainer.createOrOnType_wrong hf _
          (KVContainer.compatible_set.absent hT) _ _ _) rfl rfl)
  | sismember =>
      cases ht
      exact (syntax_run (syntax_exact (of_decide_eq_true hwf))).trans
        (readKey_rejects
          (KVContainer.onType_wrong hf _ (KVContainer.compatible_set.absent hT) _ _) rfl)
  | smismember =>
      cases ht
      exact (syntax_run (syntax_many (of_decide_eq_true hwf))).trans
        (readKey_rejects
          (KVContainer.setMIsMember_wrong hf _ (KVContainer.compatible_set.absent hT) _) rfl)
  | smembers =>
      cases ht
      exact (syntax_run (syntax_exact (of_decide_eq_true hwf))).trans
        (readKey_rejects
          (KVContainer.onType_wrong hf _ (KVContainer.compatible_set.absent hT) _ _) rfl)
  | srem =>
      cases ht
      exact (syntax_run (syntax_many (of_decide_eq_true hwf))).trans
        (onKey_rejects
          (KVContainer.setRemoveMembersByName_wrong hf _ (KVContainer.compatible_set.absent hT) _)
          rfl rfl)
  | scard =>
      cases ht
      exact (syntax_run (syntax_exact (of_decide_eq_true hwf))).trans
        (readKey_rejects
          (KVContainer.onType_wrong hf _ (KVContainer.compatible_set.absent hT) _ _) rfl)
  | overview | total | ping | evict | del | exists_ | type | expire | expireat | ttl | set
  | getrange | setrange | linsert | lrem | spop | publish | subscribe | unsubscribe | bgsave =>
      cases ht

/-- The replies of the paths that lose the code. -/
def Opcode.lostReply (op : Opcode) (args : List Bytes) : Bytes :=
  if op = .strlen then packIntReply 0 else packEmptyArrayMsg (args.drop 1).length

theorem lostReply_ne (op : Opcode) (args : List Bytes) : op.lostReply args ≠ kWrongTypeMsg := by
  unfold Opcode.lostReply
  split
  · decide
  · intro h
    have hfirst := congrArg List.head? h
    revert hfirst
    simp only [packEmptyArrayMsg, List.append_assoc]
    exact (by decide : some (42 : UInt8) ≠ kWrongTypeMsg.head?)

/-- They reply as if the key were not there. -/
theorem handler_forgets {ctx : Ctx} {s : Engine} {op : Opcode} {args : List Bytes}
    (hwf : op.wellFormed args = true) {takes : Value → Bool} (ht : op.takes = some takes)
    {obj : ValueObject} (hf : s.holder.find (.ofStdString (arg args 0)) = some obj)
    (hT : takes obj.payload.toValue = false) (hlost : op.forgets args) :
    op.handler ctx s (op.name :: args) = (s, .ok (op.lostReply args)) := by
  obtain rfl | ⟨rfl, hlen⟩ := hlost
  · cases ht
    refine (syntax_run (syntax_exact (of_decide_eq_true hwf))).trans ?_
    rw [readKey, arg_cons, KVContainer.strLen_wrong hf ctx.now hT]
    rfl
  · cases ht
    refine (syntax_run (syntax_many (of_decide_eq_true hwf))).trans ?_
    have hthree : ¬ (Opcode.name .hget :: args).length = 3 := by
      rw [List.length_cons]
      omega
    rw [if_neg hthree, readKey, arg_cons, KVContainer.hashGetValues,
      KVContainer.onType_wrong hf ctx.now (KVContainer.compatible_hash.absent hT)]
    rfl

/-- The command is refused with the type error, and leaves every value and the
log as it found them. Under memory pressure it finds them after the lazy
eviction. -/
def RefusesType (ctx : Ctx) (s : Engine) (argv : List Bytes) : Prop :=
  (s.handleCommand ctx argv).2 = .ok kWrongTypeMsg ∧
    (s.handleCommand ctx argv).1.holder.view = (s.lazyEviction ctx).holder.view ∧
    (s.handleCommand ctx argv).1.log = (s.lazyEviction ctx).log

/-- **A well-formed command on a value it is not defined for is refused, and
harmless, exactly when it is neither `strlen` nor `hget` of several fields.** -/
theorem refusesType_iff (ctx : Ctx) (s : Engine) {op : Opcode} {argv : List Bytes}
    (hop : opcodeOf argv = some op) (hwf : op.wellFormed (argv.drop 1) = true)
    {takes : Value → Bool} (ht : op.takes = some takes) {v : Value}
    (hv : (s.lazyEviction ctx).holder.view (.ofStdString (arg argv 1)) = some v)
    (hT : takes v = false) :
    RefusesType ctx s argv ↔ ¬ op.forgets (argv.drop 1) := by
  have hkey : arg argv 1 = arg (argv.drop 1) 0 := by
    cases argv <;> rfl
  rw [hkey] at hv
  obtain ⟨obj, hf, rfl⟩ := Option.map_eq_some_iff.mp hv
  have hrun : s.handleCommand ctx argv =
      op.handler ctx (s.lazyEviction ctx) (op.name :: argv.drop 1) := by
    rw [handleCommand_lazy, hop, lowered_eq hop]
  constructor
  · rintro ⟨hreply, -⟩ hlost
    rw [hrun, handler_forgets hwf ht hf hT hlost] at hreply
    exact lostReply_ne op _ (Except.ok.inj hreply)
  · intro hne
    rw [RefusesType, hrun, handler_rejects hwf ht hf hT hne]
    exact ⟨rfl, rfl, rfl⟩

/-- An engine whose only key is the list `l`. -/
def oneList : Engine := (Engine.new.handleCommand calm [ascii "rpush", ascii "l", ascii "x"]).1

theorem refusesType_get_list :
    opcodeOf [ascii "get", ascii "l"] = some .get ∧
      RefusesType calm oneList [ascii "get", ascii "l"] := by
  have hop : opcodeOf [ascii "get", ascii "l"] = some .get := opcodeOf_name .get _
  have hv : (oneList.lazyEviction calm).holder.view ⟨ascii "l"⟩ = some (.list [ascii "x"]) := by
    rfl
  refine ⟨hop, (refusesType_iff calm oneList hop (by decide) rfl hv rfl).mpr ?_⟩
  rintro (h | ⟨h, -⟩) <;> cases h

/-- `strlen` and `hget` of two fields, on a list. -/
theorem strlen_and_hget_accept_a_list :
    oneList.holder.view ⟨ascii "l"⟩ = some (.list [ascii "x"]) ∧
      (oneList.handleCommand calm [ascii "strlen", ascii "l"]).2 = .ok (packIntReply 0) ∧
      ¬ RefusesType calm oneList [ascii "strlen", ascii "l"] ∧
      (oneList.handleCommand calm [ascii "hget", ascii "l", ascii "a", ascii "b"]).2 =
        .ok (packEmptyArrayMsg 2) ∧
      ¬ RefusesType calm oneList [ascii "hget", ascii "l", ascii "a", ascii "b"] := by
  have hlen :
      (oneList.handleCommand calm [ascii "strlen", ascii "l"]).2 = .ok (packIntReply 0) := by
    decide +kernel
  have hget : (oneList.handleCommand calm [ascii "hget", ascii "l", ascii "a", ascii "b"]).2 =
      .ok (packEmptyArrayMsg 2) := by
    decide +kernel
  refine ⟨rfl, hlen, ?_, hget, ?_⟩
  · rintro ⟨hreply, -⟩
    rw [hlen] at hreply
    exact absurd (Except.ok.inj hreply) (by decide)
  · rintro ⟨hreply, -⟩
    rw [hget] at hreply
    exact absurd (Except.ok.inj hreply) (by decide)

end LiteKV
