/-
LiteKV.RedundancyTheorems — when the rewriting of a dump file completes.

Both passes are followed over the entries of a file (`LogEntry`). The
grouping needs a second word. The first pass never faults on an entry, and
leaves of a key's commands the `survivors`: those that no later `del`,
`set` or passed `expireat` overtakes. Of the second pass only the length
of `aux_list` matters for faults, so `RewriteSafe` counts elements: it is
a condition on the file and the clock, and on a file that a server wrote
it holds exactly when `RemoveRedundancy` completes.
-/
import LiteKV.Redundancy
import LiteKV.Net.LogTheorems
import LiteKV.Lib.Run

namespace LiteKV

open Lib Lib.AssocList Lib.Run

/-! ## Grouping -/

/-- The commands of a file on a key. -/
def commandsOn (key : Bytes) (file : List (List Bytes)) : List (List Bytes) :=
  file.filter fun c => decide (arg c 1 = key)

namespace CacheMap

theorem keys_pushBack (m : CacheMap) (key : Bytes) (c : List Bytes) (hn : (keys m).Nodup) :
    (keys (m.pushBack key c)).Nodup := by
  unfold pushBack
  split
  · rename_i hf
    rw [keys_append, List.nodup_append]
    refine ⟨hn, List.nodup_singleton key, ?_⟩
    intro k hk k' hk' heq
    rw [List.mem_singleton.mp hk'] at heq
    exact find?_eq_none.mp hf ((show k = key from heq) ▸ hk)
  · rw [keys_reset]
    exact hn

theorem find?_pushBack (m : CacheMap) (key key' : Bytes) (c : List Bytes) :
    (AssocList.find? key' (m.pushBack key c)).getD []
      = (AssocList.find? key' m).getD [] ++ if key = key' then [c] else [] := by
  unfold pushBack
  split
  · rename_i hf
    rw [find?_append, find?_cons]
    by_cases hk : key = key'
    · subst hk
      simp [hf]
    · simp [hk]
  · rename_i commands hf
    rw [find?_reset]
    by_cases hk : key = key'
    · subst hk
      simp [hf]
    · simp [hk, Ne.symm hk]

end CacheMap

theorem wordAt_of_lt {argv : List Bytes} {i : Nat} (h : i < argv.length) :
    wordAt argv i = .ok (arg argv i) := by
  simp [wordAt, arg, h]

theorem wordAt_of_le {argv : List Bytes} {i : Nat} (h : argv.length ≤ i) :
    wordAt argv i = .error .outOfRange := by
  simp [wordAt, h]

/-- Grouping completes exactly when every command has a second word. -/
theorem populateCaches_iff : ∀ (caches : List (List Bytes)) (m : CacheMap),
    (∃ m', populateCaches m caches = .ok m') ↔ ∀ c ∈ caches, 2 ≤ c.length
  | [], m => by simp [populateCaches]
  | c :: caches, m => by
      rw [List.forall_mem_cons]
      by_cases hc : 2 ≤ c.length
      · simp only [populateCaches, wordAt_of_lt (show 1 < c.length from hc), ok_bind, hc, true_and]
        exact populateCaches_iff caches _
      · simp only [populateCaches, wordAt_of_le (show c.length ≤ 1 by omega), error_bind]
        simp [hc]

/-- What is in the map once all commands are grouped. -/
theorem populateCaches_spec : ∀ (caches : List (List Bytes)) (m m' : CacheMap),
    populateCaches m caches = .ok m' → (keys m).Nodup →
      (keys m').Nodup ∧ ∀ key, (AssocList.find? key m').getD []
        = (AssocList.find? key m).getD [] ++ commandsOn key caches
  | [], m, m', h, hn => by
      cases h
      exact ⟨hn, fun key => by simp [commandsOn]⟩
  | c :: caches, m, m', h, hn => by
      have hc : 1 < c.length :=
        (populateCaches_iff (c :: caches) m).mp ⟨m', h⟩ c List.mem_cons_self
      simp only [populateCaches, wordAt_of_lt hc, ok_bind] at h
      obtain ⟨hn', hfind⟩ := populateCaches_spec caches _ m' h (CacheMap.keys_pushBack m _ c hn)
      refine ⟨hn', fun key => ?_⟩
      rw [hfind, CacheMap.find?_pushBack, List.append_assoc]
      congr 1
      by_cases hk : arg c 1 = key
      · simp [commandsOn, hk]
      · simp [commandsOn, hk]

/-- The items of the map are the keys of the file with their commands. -/
theorem populateCaches_items {file : List (List Bytes)} {m : CacheMap}
    (h : populateCaches [] file = .ok m) :
    (keys m).Nodup ∧ (∀ item ∈ m, item.2 = commandsOn item.1 file) ∧
      ∀ key, key ∉ keys m → commandsOn key file = [] := by
  obtain ⟨hn, hfind⟩ := populateCaches_spec file [] m h List.nodup_nil
  refine ⟨hn, ?_, ?_⟩
  · intro item hitem
    have hf := find?_of_mem hn hitem
    have hk := hfind item.1
    rw [hf] at hk
    exact hk
  · intro key hkey
    have hk := hfind key
    rw [find?_eq_none.mpr hkey] at hk
    exact hk.symm

/-! ## The first pass -/

/-- The time of an `expireat` has come. A word that is no number counts as now. -/
def expired (now : Nat) (c : List Bytes) : Bool :=
  decide ((canConvertToUInt64 (arg c 2)).getD now ≤ now)

/-- The command makes what was there before it on its key void. -/
def clears (now : Nat) (c : List Bytes) : Bool :=
  match Opcode.ofBytes (arg c 0) with
  | some .del => true
  | some .set => true
  | some .expireat => expired now c
  | _ => false

/-- The command itself leaves something on its key. -/
def remains (now : Nat) (c : List Bytes) : Bool :=
  match Opcode.ofBytes (arg c 0) with
  | some .del => false
  | some .expireat => !expired now c
  | _ => true

/-- The commands that no later one makes void. -/
def survivors (now : Nat) : List (List Bytes) → List (List Bytes)
  | [] => []
  | c :: cs =>
      if !cs.any (clears now) && remains now c then c :: survivors now cs else survivors now cs

@[simp] theorem LogEntry.wordAt_zero (e : LogEntry) : wordAt e.argv 0 = .ok e.opcode.name := rfl

/-- One entry in the first pass. -/
theorem sequentialStep_entry (now : Nat) (sequential : List (List Bytes)) (e : LogEntry) :
    sequentialStep now sequential e.argv
      = .ok ((if clears now e.argv then [] else sequential) ++
          if remains now e.argv then [e.argv] else []) := by
  unfold sequentialStep clears remains
  rw [e.wordAt_zero, ok_bind, e.arg_zero, Opcode.ofBytes_name]
  cases e with
  | del keys => rfl
  | set key value => rfl
  | expireat key sec =>
      show (if now ≥ (canConvertToUInt64 (arg (LogEntry.expireat key sec).argv 2)).getD now
        then _ else _) = _
      dsimp only [LogEntry.opcode]
      unfold expired
      by_cases hle : (canConvertToUInt64 (arg (LogEntry.expireat key sec).argv 2)).getD now ≤ now
      · simp [hle]
      · simp [hle]
  | _ => rfl

/-- The first pass over entries keeps the survivors. -/
theorem sequentialOf_entries (now : Nat) : ∀ (cmds sequential : List (List Bytes)),
    (∀ c ∈ cmds, Loggable c) → sequentialOf now sequential cmds
      = .ok ((if cmds.any (clears now) then [] else sequential) ++ survivors now cmds)
  | [], sequential, _ => by simp [sequentialOf, survivors]
  | c :: cmds, sequential, h => by
      obtain ⟨e, rfl⟩ := h c List.mem_cons_self
      have ih := sequentialOf_entries now cmds
      rw [sequentialOf, sequentialStep_entry, ok_bind,
        ih _ fun c hc => h c (List.mem_cons_of_mem _ hc), List.any_cons, survivors]
      -- a later command that clears decides alone; else this one does
      by_cases hlater : cmds.any (clears now) = true
      · simp [hlater]
      · rw [Bool.not_eq_true] at hlater
        by_cases hclears : clears now e.argv = true
        · by_cases hremains : remains now e.argv = true
          · simp [hlater, hclears, hremains]
          · simp [hlater, hclears, hremains]
        · by_cases hremains : remains now e.argv = true
          · simp [hlater, hclears, hremains]
          · simp [hlater, hclears, hremains]

theorem survivors_subset (now : Nat) : ∀ (cmds : List (List Bytes)), survivors now cmds ⊆ cmds
  | [] => fun _ h => h
  | c :: cmds => by
      have ih := survivors_subset now cmds
      unfold survivors
      split
      · exact List.cons_subset_cons c ih
      · exact fun x hx => List.mem_cons_of_mem c (ih hx)

/-! ## The second pass, entry by entry -/

namespace Aux

/-- The result of `count` with a change. -/
def counted (aux : Aux) (change : Int64) : Aux :=
  let n := (canConvertToInt64 aux.string).getD aux.int64
  { aux with
    opType := some .integer
    int64 := n
    string := if (canConvertToInt64 aux.string).isSome ∨ aux.string.isEmpty then
      intToString (n + change).toInt else aux.string }

theorem count_eq (aux : Aux) {f : Int64 → Except Fault Int64} {change : Int64}
    (hf : ∀ n, f n = .ok (n + change)) : aux.count f = .ok (aux.counted change) := by
  unfold count counted
  dsimp only
  split
  · rw [hf]
    rfl
  · rfl

theorem foldl_push_front (values : List Bytes) : ∀ (l : List Bytes),
    values.foldl (fun l value => value :: l) l = values.reverse ++ l := by
  induction values with
  | nil => intro l; rfl
  | cons value values ih => intro l; simp [ih]

theorem foldl_push_back (values : List Bytes) : ∀ (l : List Bytes),
    values.foldl (fun l value => l ++ [value]) l = l ++ values := by
  induction values with
  | nil => intro l; simp
  | cons value values ih => intro l; simp [ih]

/-- The loop of `hset` over pairs. -/
theorem setPairs_flatMap (fvs : List (Bytes × Bytes)) : ∀ (hash : List (Bytes × Bytes)),
    setPairs hash (fvs.flatMap fun e => [e.1, e.2])
      = .ok (fvs.foldl (fun m e => e :: erase e.1 m) hash) := by
  induction fvs with
  | nil => intro hash; rfl
  | cons e fvs ih => intro hash; exact ih _

section

variable (aux : Aux) (alone : Bool) (key value : Bytes)

theorem step_set : aux.step alone (LogEntry.set key value).argv
    = .ok (if alone then
        { aux with
          opType := some .other, appended := aux.appended ++ [(LogEntry.set key value).argv] }
      else { aux with opType := some .other, string := value }) := by
  rw [step, LogEntry.wordAt_zero, ok_bind, Opcode.ofBytes_name]
  cases alone <;> rfl

theorem step_lpush (values : List Bytes) : aux.step alone (LogEntry.lpush key values).argv
    = .ok { aux with opType := some .list, list := values.reverse ++ aux.list } := by
  rw [← foldl_push_front, step, LogEntry.wordAt_zero, ok_bind, Opcode.ofBytes_name]
  rfl

theorem step_rpush (values : List Bytes) : aux.step alone (LogEntry.rpush key values).argv
    = .ok { aux with opType := some .list, list := aux.list ++ values } := by
  rw [← foldl_push_back, step, LogEntry.wordAt_zero, ok_bind, Opcode.ofBytes_name]
  rfl

theorem step_lpop : aux.step alone (LogEntry.lpop key).argv
    = if aux.list.isEmpty then .error .emptyDeque
      else .ok { aux with opType := some .list, list := aux.list.tail } := by
  rw [step, LogEntry.wordAt_zero, ok_bind, Opcode.ofBytes_name]
  rfl

theorem step_rpop : aux.step alone (LogEntry.rpop key).argv
    = if aux.list.isEmpty then .error .emptyDeque
      else .ok { aux with opType := some .list, list := aux.list.dropLast } := by
  rw [step, LogEntry.wordAt_zero, ok_bind, Opcode.ofBytes_name]
  rfl

/-- `std::stoul` reads a negative index modulo 2^64. -/
theorem step_lsetindex {idx : Int} (fits : -2 ^ 31 ≤ idx ∧ idx < 2 ^ 31) :
    aux.step alone (LogEntry.lsetindex key idx fits value).argv
      = if (idx % 2 ^ 64).toNat < aux.list.length then
          .ok { aux with opType := some .list, list := aux.list.set (idx % 2 ^ 64).toNat value }
        else .error .outOfRange := by
  rw [step, LogEntry.wordAt_zero, ok_bind, Opcode.ofBytes_name]
  show ({ aux with opType := some .list } : Aux).setIndex (intToString idx) value = _
  rw [setIndex, stoull_intToString (by omega) (by omega)]
  rfl

theorem step_hset (fvs : List (Bytes × Bytes)) : aux.step alone (LogEntry.hset key fvs).argv
    = .ok { aux with
        opType := some .hash, hash := fvs.foldl (fun m e => e :: erase e.1 m) aux.hash } := by
  have h := setPairs_flatMap fvs aux.hash
  rw [step, LogEntry.wordAt_zero, ok_bind, Opcode.ofBytes_name]
  show (setPairs aux.hash (fvs.flatMap fun e => [e.1, e.2]) >>= _) = _
  rw [h]
  rfl

theorem step_hdel (fields : List Bytes) : aux.step alone (LogEntry.hdel key fields).argv
    = .ok { aux with
        opType := some .hash, hash := fields.foldl (fun m field => erase field m) aux.hash } := by
  rw [step, LogEntry.wordAt_zero, ok_bind, Opcode.ofBytes_name]
  rfl

theorem step_sadd (members : List Bytes) : aux.step alone (LogEntry.sadd key members).argv
    = .ok { aux with
        opType := some .set
        uset := members.foldl (fun m member => m.insert member) aux.uset } := by
  rw [step, LogEntry.wordAt_zero, ok_bind, Opcode.ofBytes_name]
  rfl

theorem step_srem (members : List Bytes) : aux.step alone (LogEntry.srem key members).argv
    = .ok { aux with
        opType := some .set, uset := members.foldl (fun m member => m.erase member) aux.uset } := by
  rw [step, LogEntry.wordAt_zero, ok_bind, Opcode.ofBytes_name]
  rfl

theorem step_append : aux.step alone (LogEntry.append key value).argv
    = .ok { aux with opType := some .string, string := aux.string ++ value } := by
  rw [step, LogEntry.wordAt_zero, ok_bind, Opcode.ofBytes_name]
  rfl

theorem step_incr : aux.step alone (LogEntry.incr key).argv = .ok (aux.counted 1) := by
  rw [step, LogEntry.wordAt_zero, ok_bind, Opcode.ofBytes_name]
  exact aux.count_eq fun _ => rfl

theorem step_decr : aux.step alone (LogEntry.decr key).argv = .ok (aux.counted (-1)) := by
  rw [step, LogEntry.wordAt_zero, ok_bind, Opcode.ofBytes_name]
  show aux.count (fun n => .ok (n - 1)) = _
  exact aux.count_eq fun n => by rw [Int64.sub_eq_add_neg]

theorem stoll_toInt (n : Int64) : stoll (intToString n.toInt) = some n.toInt :=
  stoll_intToString (Int64.le_toInt n) (Int64.toInt_lt n)

theorem step_incrby {n : Int64} (hn : 0 ≤ n.toInt) :
    aux.step alone (LogEntry.incrby key n hn).argv = .ok (aux.counted n) := by
  rw [step, LogEntry.wordAt_zero, ok_bind, Opcode.ofBytes_name]
  show aux.count (fun m => do
    let change ← orNotANumber (stoll (intToString n.toInt))
    .ok (m + Int64.ofInt change)) = _
  refine aux.count_eq fun m => ?_
  rw [stoll_toInt]
  simp [orNotANumber]

theorem step_decrby {n : Int64} (hn : 0 ≤ n.toInt) :
    aux.step alone (LogEntry.decrby key n hn).argv = .ok (aux.counted (-n)) := by
  rw [step, LogEntry.wordAt_zero, ok_bind, Opcode.ofBytes_name]
  show aux.count (fun m => do
    let change ← orNotANumber (stoll (intToString n.toInt))
    .ok (m - Int64.ofInt change)) = _
  refine aux.count_eq fun m => ?_
  rw [stoll_toInt, ← Int64.sub_eq_add_neg]
  simp [orNotANumber]

end

end Aux

/-! ## Faults -/

/-- The length of `aux_list` after a command. -/
def elementsAfter (n : Nat) (c : List Bytes) : Nat :=
  match Opcode.ofBytes (arg c 0) with
  | some .lpush => n + (c.length - 2)
  | some .rpush => n + (c.length - 2)
  | some .lpop => n - 1
  | some .rpop => n - 1
  | _ => n

/-- The second pass can take a command while `aux_list` has `n` elements. -/
def StepSafe (n : Nat) (c : List Bytes) : Prop :=
  match Opcode.ofBytes (arg c 0) with
  | some .del => False
  | some .expireat => False
  | some .lpop => 0 < n
  | some .rpop => 0 < n
  | some .lsetindex => ∃ i, stoull (arg c 2) = some i ∧ i < n
  | _ => True

theorem elementsAfter_entry (n : Nat) (e : LogEntry) : elementsAfter n e.argv = match e with
    | .lpush _ values => n + values.length
    | .rpush _ values => n + values.length
    | .lpop _ => n - 1
    | .rpop _ => n - 1
    | _ => n := by
  unfold elementsAfter
  rw [e.arg_zero, Opcode.ofBytes_name]
  cases e <;> rfl

theorem stepSafe_entry (n : Nat) (e : LogEntry) : StepSafe n e.argv ↔ match e with
    | .del _ => False
    | .expireat _ _ => False
    | .lpop _ => 0 < n
    | .rpop _ => 0 < n
    | .lsetindex _ idx _ _ => (idx % 2 ^ 64).toNat < n
    | _ => True := by
  unfold StepSafe
  rw [e.arg_zero, Opcode.ofBytes_name]
  cases e with
  | lsetindex key idx fits value =>
      have hidx : stoull (arg (LogEntry.lsetindex key idx fits value).argv 2)
          = some (idx % 2 ^ 64).toNat := stoull_intToString (by omega) (by omega)
      dsimp only [LogEntry.opcode]
      rw [hidx]
      simp
  | _ => exact Iff.rfl

/-- The `op_type` a command leaves. -/
def OpType.of (c : List Bytes) : Option OpType :=
  match Opcode.ofBytes (arg c 0) with
  | some .lpush => some .list
  | some .rpush => some .list
  | some .lpop => some .list
  | some .rpop => some .list
  | some .lsetindex => some .list
  | some .hset => some .hash
  | some .hdel => some .hash
  | some .sadd => some .set
  | some .srem => some .set
  | some .append => some .string
  | some .incr => some .integer
  | some .decr => some .integer
  | some .incrby => some .integer
  | some .decrby => some .integer
  | some .set => some .other
  | _ => none

theorem OpType.of_entry (e : LogEntry) : OpType.of e.argv = match e with
    | .lpush _ _ | .rpush _ _ | .lpop _ | .rpop _ | .lsetindex _ _ _ _ => some .list
    | .hset _ _ | .hdel _ _ => some .hash
    | .sadd _ _ | .srem _ _ => some .set
    | .append _ _ => some .string
    | .incr _ | .decr _ | .incrby _ _ _ | .decrby _ _ _ => some .integer
    | .set _ _ => some .other
    | .del _ | .expireat _ _ => none := by
  unfold OpType.of
  rw [e.arg_zero, Opcode.ofBytes_name]
  cases e <;> rfl

namespace Aux

/-- What one entry does in the second pass, as far as faults are concerned. -/
def StepResult (aux : Aux) (e : LogEntry) (r : Except Fault Aux) : Prop :=
  (StepSafe aux.list.length e.argv ∧ ∃ aux', r = .ok aux' ∧
      aux'.list.length = elementsAfter aux.list.length e.argv ∧
      aux'.opType = OpType.of e.argv ∧ aux'.opType.isSome) ∨
    (¬ StepSafe aux.list.length e.argv ∧ ∃ f, r = .error f)

/-- An entry that neither needs nor changes `aux_list`. -/
theorem StepResult.keeps {aux aux' : Aux} {e : LogEntry}
    (hsafe : StepSafe aux.list.length e.argv)
    (hcount : elementsAfter aux.list.length e.argv = aux.list.length)
    (hlist : aux'.list = aux.list) (htype : aux'.opType = OpType.of e.argv)
    (hsome : aux'.opType.isSome) : aux.StepResult e (.ok aux') :=
  .inl ⟨hsafe, aux', rfl, by rw [hlist, hcount], htype, hsome⟩

theorem step_result (aux : Aux) (alone : Bool) (e : LogEntry) :
    aux.StepResult e (aux.step alone e.argv) := by
  have hsafe := stepSafe_entry aux.list.length e
  have hcount := elementsAfter_entry aux.list.length e
  have htype := (OpType.of_entry e).symm
  cases e with
  | del keys => exact .inr ⟨hsafe.mp, .assertion, rfl⟩
  | expireat key sec => exact .inr ⟨hsafe.mp, .assertion, rfl⟩
  | set key value =>
      rw [step_set]
      cases alone with
      | true => exact .keeps (hsafe.mpr trivial) hcount rfl htype rfl
      | false => exact .keeps (hsafe.mpr trivial) hcount rfl htype rfl
  | incr key =>
      rw [step_incr]
      exact .keeps (hsafe.mpr trivial) hcount rfl htype rfl
  | decr key =>
      rw [step_decr]
      exact .keeps (hsafe.mpr trivial) hcount rfl htype rfl
  | incrby key n hn =>
      rw [step_incrby]
      exact .keeps (hsafe.mpr trivial) hcount rfl htype rfl
  | decrby key n hn =>
      rw [step_decrby]
      exact .keeps (hsafe.mpr trivial) hcount rfl htype rfl
  | append key value => exact .keeps (hsafe.mpr trivial) hcount rfl htype rfl
  | lpush key values =>
      rw [step_lpush]
      refine .inl ⟨hsafe.mpr trivial, _, rfl, ?_, htype, rfl⟩
      rw [hcount, List.length_append, List.length_reverse, Nat.add_comm]
  | rpush key values =>
      rw [step_rpush]
      refine .inl ⟨hsafe.mpr trivial, _, rfl, ?_, htype, rfl⟩
      rw [hcount, List.length_append]
  | lpop key =>
      rw [step_lpop]
      by_cases hnil : aux.list = []
      · rw [if_pos (by simp [hnil])]
        exact .inr ⟨fun h => by simpa [hnil] using hsafe.mp h, .emptyDeque, rfl⟩
      · rw [if_neg (by simpa using hnil)]
        refine .inl ⟨hsafe.mpr (List.length_pos_iff.mpr hnil), _, rfl, ?_, htype, rfl⟩
        rw [hcount, List.length_tail]
  | rpop key =>
      rw [step_rpop]
      by_cases hnil : aux.list = []
      · rw [if_pos (by simp [hnil])]
        exact .inr ⟨fun h => by simpa [hnil] using hsafe.mp h, .emptyDeque, rfl⟩
      · rw [if_neg (by simpa using hnil)]
        refine .inl ⟨hsafe.mpr (List.length_pos_iff.mpr hnil), _, rfl, ?_, htype, rfl⟩
        rw [hcount, List.length_dropLast]
  | lsetindex key idx fits value =>
      rw [step_lsetindex]
      split
      · rename_i hlt
        refine .inl ⟨hsafe.mpr hlt, _, rfl, ?_, htype, rfl⟩
        rw [hcount, List.length_set]
      · rename_i hge
        exact .inr ⟨fun h => hge (hsafe.mp h), .outOfRange, rfl⟩
  | hset key fvs =>
      rw [step_hset]
      exact .keeps (hsafe.mpr trivial) hcount rfl htype rfl
  | hdel key fields => exact .keeps (hsafe.mpr trivial) hcount rfl htype rfl
  | sadd key members => exact .keeps (hsafe.mpr trivial) hcount rfl htype rfl
  | srem key members => exact .keeps (hsafe.mpr trivial) hcount rfl htype rfl

/-- The second pass over entries completes exactly when the elements suffice at
every step. -/
theorem simulate_iff : ∀ (sequential : List (List Bytes)) (aux : Aux),
    (∀ c ∈ sequential, Loggable c) →
      ((∃ aux', aux.simulate sequential = .ok aux') ↔
        Guarded elementsAfter StepSafe aux.list.length sequential)
  | [], aux, _ => ⟨fun _ => trivial, fun _ => ⟨aux, rfl⟩⟩
  | c :: cs, aux, h => by
      obtain ⟨e, rfl⟩ := h c List.mem_cons_self
      rcases aux.step_result cs.isEmpty e with ⟨hsafe, aux', hstep, hlen, -⟩ | ⟨hfault, f, hstep⟩
      · have ih := simulate_iff cs aux' fun c hc => h c (List.mem_cons_of_mem _ hc)
        rw [hlen] at ih
        rw [simulate, hstep, ok_bind, ih]
        exact ⟨fun hg => ⟨hsafe, hg⟩, fun hg => hg.2⟩
      · rw [simulate, hstep, error_bind]
        exact ⟨fun ⟨_, h⟩ => (by cases h), fun hg => absurd hg.1 hfault⟩

/-- `op_type` is assigned once a command has been simulated. -/
theorem simulate_opType : ∀ (sequential : List (List Bytes)) (aux aux' : Aux),
    (∀ c ∈ sequential, Loggable c) → aux.simulate sequential = .ok aux' →
      (aux.opType.isSome ∨ sequential ≠ []) → aux'.opType.isSome
  | [], aux, aux', _, h, ht => by
      cases h
      exact ht.resolve_right fun hne => hne rfl
  | c :: cs, aux, aux', hl, h, _ => by
      obtain ⟨e, rfl⟩ := hl c List.mem_cons_self
      rcases aux.step_result cs.isEmpty e with ⟨-, aux₁, hstep, -, -, ht⟩ | ⟨-, f, hstep⟩
      · rw [simulate, hstep, ok_bind] at h
        exact simulate_opType cs aux₁ aux' (fun c hc => hl c (List.mem_cons_of_mem _ hc)) h
          (.inl ht)
      · rw [simulate, hstep, error_bind] at h
        cases h

theorem restore_of_opType {aux : Aux} (h : aux.opType.isSome) (order : RewriteOrder)
    (key : Bytes) : ∃ cmds, aux.restore order key = .ok cmds := by
  unfold restore
  cases ht : aux.opType with
  | none =>
      rw [ht] at h
      cases h
  | some t => cases t <;> exact ⟨_, rfl⟩

end Aux

theorem rewriteKey_iff (now : Nat) (order : RewriteOrder) (key : Bytes)
    {commands : List (List Bytes)} (hl : ∀ c ∈ commands, Loggable c) :
    (∃ cmds, rewriteKey now order key commands = .ok cmds) ↔
      Guarded elementsAfter StepSafe 0 (survivors now commands) := by
  have hseq := sequentialOf_entries now commands [] hl
  have hsub : ∀ c ∈ survivors now commands, Loggable c :=
    fun c hc => hl c (survivors_subset now commands hc)
  rw [ite_self, List.nil_append] at hseq
  rw [rewriteKey, hseq, ok_bind]
  cases hs : survivors now commands with
  | nil => exact ⟨fun _ => trivial, fun _ => ⟨[], rfl⟩⟩
  | cons c cs =>
      rw [hs] at hsub
      refine Iff.trans ?_ (Aux.simulate_iff (c :: cs) .new hsub)
      rw [List.isEmpty_cons, if_neg Bool.false_ne_true]
      constructor
      · rintro ⟨cmds, h⟩
        cases hsim : Aux.new.simulate (c :: cs) with
        | ok aux => exact ⟨aux, rfl⟩
        | error f =>
            rw [hsim] at h
            cases h
      · rintro ⟨aux, hsim⟩
        have ht := Aux.simulate_opType (c :: cs) .new aux hsub hsim (.inr (List.cons_ne_nil c cs))
        obtain ⟨cmds, hr⟩ := Aux.restore_of_opType ht order key
        exact ⟨cmds, by rw [hsim]; exact hr⟩

theorem rewriteKeys_iff (now : Nat) (order : RewriteOrder) : ∀ (items : CacheMap),
    (∃ out, rewriteKeys now order items = .ok out) ↔
      ∀ item ∈ items, ∃ cmds, rewriteKey now order item.1 item.2 = .ok cmds
  | [] => by simp [rewriteKeys]
  | item :: items => by
      rw [List.forall_mem_cons, ← rewriteKeys_iff now order items]
      cases hk : rewriteKey now order item.1 item.2 with
      | error f => simp [rewriteKeys, hk]
      | ok cmds =>
          cases hr : rewriteKeys now order items with
          | error f => simp [rewriteKeys, hk, hr]
          | ok rest => simp [rewriteKeys, hk, hr]

/-! ## Files -/

/-- Every command has a key, and the commands that survive on a key are no
`expireat`, pop only what was pushed, and write only below the number of
elements. -/
structure RewriteSafe (now : Nat) (file : List (List Bytes)) : Prop where
  keyed : ∀ c ∈ file, 2 ≤ c.length
  simulated : ∀ key, Guarded elementsAfter StepSafe 0 (survivors now (commandsOn key file))

/-- Rewriting a file that servers wrote completes exactly when the file is safe
at that time, whatever the iteration orders are. -/
theorem removeRedundancy_completes_iff {file : List (List Bytes)} (haof : Aof file) (now : Nat)
    (order : RewriteOrder) :
    (∃ out, removeRedundancy now order file = .ok out) ↔ RewriteSafe now file := by
  have hl : ∀ key, ∀ c ∈ commandsOn key file, Loggable c :=
    fun key c hc => haof.entries c (List.mem_filter.mp hc).1
  cases hpop : populateCaches [] file with
  | error f =>
      refine ⟨fun ⟨out, h⟩ => ?_, fun h => ?_⟩
      · rw [removeRedundancy, hpop] at h
        cases h
      · obtain ⟨m, hm⟩ := (populateCaches_iff file []).mpr h.keyed
        rw [hpop] at hm
        cases hm
  | ok m =>
      obtain ⟨-, hitems, hrest⟩ := populateCaches_items hpop
      have hkeyed := (populateCaches_iff file []).mp ⟨m, hpop⟩
      rw [removeRedundancy, hpop, ok_bind, rewriteKeys_iff]
      constructor
      · intro h
        refine ⟨hkeyed, fun key => ?_⟩
        by_cases hk : key ∈ keys m
        · obtain ⟨item, hitem, rfl⟩ := List.mem_map.mp hk
          have hok := h item ((order.caches_perm m).mem_iff.mpr hitem)
          rw [hitems item hitem] at hok
          exact (rewriteKey_iff now order item.1 (hl _)).mp hok
        · rw [hrest key hk]
          trivial
      · intro h item hitem
        have hmem := (order.caches_perm m).mem_iff.mp hitem
        rw [hitems item hmem]
        exact (rewriteKey_iff now order item.1 (hl _)).mpr (h.simulated item.1)

/-- Every container in the order of the model's own lists. -/
def RewriteOrder.asStored : RewriteOrder where
  caches m := m
  hash _ m := m
  uset _ m := m
  caches_perm := List.Perm.refl
  hash_perm _ := List.Perm.refl
  uset_perm _ := List.Perm.refl

/-- A process that runs commands, all of them logged, five seconds after the
epoch. -/
def commandsAt5s (cmds : List (List Bytes)) : List Event :=
  cmds.map (.command ⟨5000, true, .lru, ⟨fun _ => 0, fun _ => [], fun _ => 0⟩, none, fun _ => []⟩)

theorem removeRedundancy_completes_iff_list :
    (∃ out, removeRedundancy 6 .asStored (Engine.new.run (commandsAt5s
        [[ascii "rpush", [108], [120], [121]], [ascii "lpop", [108]],
          [ascii "lsetindex", [108], ascii "0", [122]]])).log = .ok out) ↔
      RewriteSafe 6 (Engine.new.run (commandsAt5s
        [[ascii "rpush", [108], [120], [121]], [ascii "lpop", [108]],
          [ascii "lsetindex", [108], ascii "0", [122]]])).log :=
  removeRedundancy_completes_iff (aof_run _) 6 .asStored

/-- Four files that the rewriting faults on: an eviction of nothing, an
expiration to come, an index from the end, and a pop behind an expiration that
has passed since. -/
theorem removeRedundancy_faults :
    removeRedundancy 6 .asStored
        (Engine.new.run (commandsAt5s [[ascii "evict", ascii "1"]])).log = .error .outOfRange ∧
      removeRedundancy 6 .asStored (Engine.new.run (commandsAt5s
        [[ascii "set", [97], [49]], [ascii "expire", [97], ascii "100"]])).log
          = .error .assertion ∧
      removeRedundancy 6 .asStored (Engine.new.run (commandsAt5s
        [[ascii "rpush", [108], [120]], [ascii "lsetindex", [108], ascii "-1", [121]]])).log
          = .error .outOfRange ∧
      removeRedundancy 20 .asStored (Engine.new.run (commandsAt5s
        [[ascii "rpush", [108], [120], [121]], [ascii "expire", [108], ascii "10"],
          [ascii "lpop", [108]]])).log = .error .emptyDeque := by
  decide +kernel

end LiteKV
