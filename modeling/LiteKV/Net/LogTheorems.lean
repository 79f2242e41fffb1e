/-
LiteKV.Net.LogTheorems — the language of the log.

Every handler decides on its own what it appends to the file. `LogEntry`
is what can be there: one constructor for each opcode that is ever logged,
with the shape its words have. `step_logs` says that no step of the
process appends anything else, whatever its commands, its timers and its
evictions do, and `Aof.entries` that a file written by any number of
processes is a list of entries.

An entry may have fewer words than its opcode wants: `evict` logs a `del`
without a key when there is nothing to evict, and a negative `expire` of an
empty collection logs a `rpush`, `hset` or `sadd` without elements.
-/
import LiteKV.ExpirationTheorems

namespace LiteKV

open Lib Lib.AssocList

/-! ## Entries -/

/-- A command as it is logged. -/
inductive LogEntry where
  | del (keys : List Bytes)
  | set (key value : Bytes)
  | expireat (key : Bytes) (sec : UInt64)
  | incr (key : Bytes)
  | decr (key : Bytes)
  | incrby (key : Bytes) (n : Int64) (nonneg : 0 ≤ n.toInt)
  | decrby (key : Bytes) (n : Int64) (nonneg : 0 ≤ n.toInt)
  | append (key value : Bytes)
  | lpush (key : Bytes) (values : List Bytes)
  | rpush (key : Bytes) (values : List Bytes)
  | lpop (key : Bytes)
  | rpop (key : Bytes)
  | lsetindex (key : Bytes) (idx : Int) (fits : -2 ^ 31 ≤ idx ∧ idx < 2 ^ 31) (value : Bytes)
  | hset (key : Bytes) (fvs : List (Bytes × Bytes))
  | hdel (key : Bytes) (fields : List Bytes)
  | sadd (key : Bytes) (members : List Bytes)
  | srem (key : Bytes) (members : List Bytes)

namespace LogEntry

def opcode : LogEntry → Opcode
  | del _ => .del
  | set _ _ => .set
  | expireat _ _ => .expireat
  | incr _ => .incr
  | decr _ => .decr
  | incrby _ _ _ => .incrby
  | decrby _ _ _ => .decrby
  | append _ _ => .append
  | lpush _ _ => .lpush
  | rpush _ _ => .rpush
  | lpop _ => .lpop
  | rpop _ => .rpop
  | lsetindex _ _ _ _ => .lsetindex
  | hset _ _ => .hset
  | hdel _ _ => .hdel
  | sadd _ _ => .sadd
  | srem _ _ => .srem

/-- The words behind the opcode. -/
def words : LogEntry → List Bytes
  | del keys => keys
  | set key value => [key, value]
  | expireat key sec => [key, natToString sec.toNat]
  | incr key => [key]
  | decr key => [key]
  | incrby key n _ => [key, intToString n.toInt]
  | decrby key n _ => [key, intToString n.toInt]
  | append key value => [key, value]
  | lpush key values => key :: values
  | rpush key values => key :: values
  | lpop key => [key]
  | rpop key => [key]
  | lsetindex key idx _ value => [key, intToString idx, value]
  | hset key fvs => key :: fvs.flatMap fun e => [e.1, e.2]
  | hdel key fields => key :: fields
  | sadd key members => key :: members
  | srem key members => key :: members

def argv (e : LogEntry) : List Bytes := e.opcode.name :: e.words

@[simp] theorem arg_zero (e : LogEntry) : arg e.argv 0 = e.opcode.name := rfl

end LogEntry

/-- The words are those of an entry. -/
def Loggable (argv : List Bytes) : Prop := ∃ e : LogEntry, e.argv = argv

/-- `s'` has the log of `s` and entries behind it. -/
def LogsEntries (s s' : Engine) : Prop :=
  ∃ new, s'.log = s.log ++ new ∧ ∀ argv ∈ new, Loggable argv

theorem LogsEntries.refl (s : Engine) : LogsEntries s s := ⟨[], by simp, by simp⟩

theorem LogsEntries.trans {s₁ s₂ s₃ : Engine} (h₁ : LogsEntries s₁ s₂) (h₂ : LogsEntries s₂ s₃) :
    LogsEntries s₁ s₃ := by
  obtain ⟨new₁, hlog₁, hnew₁⟩ := h₁
  obtain ⟨new₂, hlog₂, hnew₂⟩ := h₂
  refine ⟨new₁ ++ new₂, by rw [hlog₂, hlog₁, List.append_assoc], ?_⟩
  intro argv hargv
  rcases List.mem_append.mp hargv with h | h
  · exact hnew₁ argv h
  · exact hnew₂ argv h

theorem LogsEntries.of_log_eq {s s' : Engine} (h : s'.log = s.log) : LogsEntries s s' :=
  ⟨[], by simp [h], by simp⟩

theorem logsEntries_append {s s' : Engine} {ctx : Ctx} {argv : List Bytes}
    (hlog : s'.log = s.log) (hargv : Loggable argv) :
    LogsEntries s (s'.addIntoAppendable ctx argv) := by
  unfold Engine.addIntoAppendable
  split
  · refine ⟨[argv], by rw [hlog], ?_⟩
    intro argv' h
    rw [List.mem_singleton] at h
    exact h ▸ hargv
  · exact .of_log_eq hlog

/-! ## Commands on one key -/

/-- An even number of words is a list of pairs. -/
theorem flatMap_fieldValues : ∀ (l : List Bytes), l.length % 2 = 0 →
    ((fieldValues l).flatMap fun e => [e.1, e.2]) = l
  | [], _ => rfl
  | [_], h => by simp at h
  | f :: v :: rest, h => by
      have ih := flatMap_fieldValues rest (by simp only [List.length_cons] at h; omega)
      simp [fieldValues, ih]

section

variable {argv : List Bytes} {op : Opcode} {args : List Bytes} {c : Cell}

/-- The words of a command that wants a key and `n` operands. -/
theorem args_of_checkSyntax {n : Nat} (h : checkSyntax (op.name :: args) 1 n false = true) :
    args.length = n + 1 := by
  have hn : (n : Int) ≠ -1 := by omega
  simp only [checkSyntax, List.length_cons, Bool.false_eq_true, false_and, if_false, hn,
    one_ne_zero, if_true, decide_eq_true_eq] at h
  omega

theorem args_of_key (h : checkSyntax (op.name :: args) 1 0 false = true) : ∃ key, args = [key] :=
  List.length_eq_one_iff.mp (args_of_checkSyntax h)

theorem args_of_operand (h : checkSyntax (op.name :: args) 1 1 false = true) :
    ∃ key word, args = [key, word] :=
  List.length_eq_two.mp (args_of_checkSyntax h)

theorem args_of_operands (h : checkSyntax (op.name :: args) 1 (-1) false = true) :
    ∃ key words, args = key :: words := by
  cases args with
  | nil => simp [checkSyntax] at h
  | cons key words => exact ⟨key, words, rfl⟩

/-- A number that `byNumber` accepts. -/
theorem number_of_byNumber {f : Int64 → Cell → Cell × ErrCode} {word : Bytes}
    (h : (Cell.byNumber f word c).2 = true) :
    ∃ n : Int64, 0 ≤ n.toInt ∧ word = intToString n.toInt := by
  unfold Cell.byNumber at h
  split at h
  · cases h
  · rename_i n hn
    split at h
    · cases h
    · rename_i hneg
      exact ⟨n, by omega, canConvertToInt64_eq_some.mp hn⟩

/-- A command on one key that is logged is an entry. -/
theorem loggable_single (h : (op.effect (op.name :: args) c).2 = true) :
    Loggable (op.name :: args) := by
  unfold Opcode.effect at h
  by_cases hs : op.syntaxOk (op.name :: args) = true
  · rw [if_pos hs] at h
    cases op with
    | set =>
        obtain ⟨key, value, rfl⟩ := args_of_operand hs
        exact ⟨.set key value, rfl⟩
    | incr =>
        obtain ⟨key, rfl⟩ := args_of_key hs
        exact ⟨.incr key, rfl⟩
    | decr =>
        obtain ⟨key, rfl⟩ := args_of_key hs
        exact ⟨.decr key, rfl⟩
    | incrby =>
        obtain ⟨key, word, rfl⟩ := args_of_operand hs
        obtain ⟨n, hn, hword⟩ := number_of_byNumber h
        exact ⟨.incrby key n hn, by rw [show word = _ from hword]; rfl⟩
    | decrby =>
        obtain ⟨key, word, rfl⟩ := args_of_operand hs
        obtain ⟨n, hn, hword⟩ := number_of_byNumber h
        exact ⟨.decrby key n hn, by rw [show word = _ from hword]; rfl⟩
    | append =>
        obtain ⟨key, value, rfl⟩ := args_of_operand hs
        exact ⟨.append key value, rfl⟩
    | lpush =>
        obtain ⟨key, values, rfl⟩ := args_of_operands hs
        exact ⟨.lpush key values, rfl⟩
    | rpush =>
        obtain ⟨key, values, rfl⟩ := args_of_operands hs
        exact ⟨.rpush key values, rfl⟩
    | lpop =>
        obtain ⟨key, rfl⟩ := args_of_key hs
        exact ⟨.lpop key, rfl⟩
    | rpop =>
        obtain ⟨key, rfl⟩ := args_of_key hs
        exact ⟨.rpop key, rfl⟩
    | lsetindex =>
        obtain ⟨key, word, value, rfl⟩ := List.length_eq_three.mp (args_of_checkSyntax hs)
        unfold Opcode.body at h
        dsimp only at h
        split at h
        · cases h
        · rename_i idx hidx
          obtain ⟨hfits, hword⟩ := canConvertToInt32_eq_some.mp hidx
          exact ⟨.lsetindex key idx hfits value, by rw [show word = _ from hword]; rfl⟩
    | hset =>
        cases args with
        | nil => cases hs
        | cons key words =>
            have heven : words.length % 2 = 0 := by
              simp only [Opcode.syntaxOk, checkSyntax, List.length_cons] at hs
              by_contra hodd
              rw [if_pos ⟨trivial, by omega⟩] at hs
              cases hs
            exact ⟨.hset key (fieldValues words),
              congrArg (fun ws => Opcode.name .hset :: key :: ws) (flatMap_fieldValues words heven)⟩
    | hdel =>
        obtain ⟨key, fields, rfl⟩ := args_of_operands hs
        exact ⟨.hdel key fields, rfl⟩
    | sadd =>
        obtain ⟨key, members, rfl⟩ := args_of_operands hs
        exact ⟨.sadd key members, rfl⟩
    | srem =>
        obtain ⟨key, members, rfl⟩ := args_of_operands hs
        exact ⟨.srem key members, rfl⟩
    | _ => cases h
  · rw [if_neg hs] at h
    cases h

end

/-! ## Steps -/

/-- The command that sets a key to its current value is an entry. -/
theorem loggable_recovered {h : KVContainer} {key : Bytes} {argv : List Bytes}
    (hrec : h.recoverCommandFromValue key = some argv) : Loggable argv := by
  rw [KVContainer.recoverCommandFromValue, Option.map_eq_some_iff] at hrec
  obtain ⟨obj, -, rfl⟩ := hrec
  cases obj.payload with
  | int v => exact ⟨.set key (intToString v.toInt), rfl⟩
  | string s => exact ⟨.set key s, rfl⟩
  | list o => exact ⟨.rpush key o.toList, rfl⟩
  | hash o => exact ⟨.hset key o.allEntries, rfl⟩
  | set o => exact ⟨.sadd key o.allKeys, rfl⟩

section

variable {ctx : Ctx} {s : Engine}

theorem setExpiration_log {key : Bytes} {interval : Int64} {s' : Engine}
    (h : s.setExpiration ctx key interval = some s') : s'.log = s.log := by
  cases setsExpiration h <;> rfl

theorem expire_logs (argv : List Bytes) : LogsEntries s (expireCommand ctx s argv).1 := by
  obtain ⟨hsame, -⟩ | ⟨interval, s', hexp, heq⟩ := expireCommand_cases s ctx argv
  · rw [hsame]
    exact .refl s
  · have hlog := setExpiration_log hexp.set
    rw [heq]
    unfold Engine.logExpiration
    split
    · refine logsEntries_append hlog
        ⟨.expireat (arg argv 1) (.ofNat (ctx.nowSec + interval.toInt.toNat)), ?_⟩
      simp only [LogEntry.argv, LogEntry.words, UInt64.toNat_ofNat']
      rfl
    · split
      · exact .of_log_eq hlog
      · rename_i hrec
        exact logsEntries_append hlog (loggable_recovered hrec)

theorem handler_logs (hok : s.holder.Ok) (op : Opcode) (args : List Bytes) :
    LogsEntries s (op.handler ctx s (op.name :: args)).1 := by
  cases hs : op.single with
  | true =>
      have ha : Affects ctx s (op.name :: args) _ _ := handler_affects hok op hs
      refine ⟨_, congrArg Engine.log ha.rest, ?_⟩
      intro argv hargv
      split at hargv
      · rename_i hlogged
        rw [Bool.and_eq_true] at hlogged
        rw [List.mem_singleton.mp hargv]
        exact loggable_single hlogged.2
      · cases hargv
  | false =>
      cases op with
      | del =>
          show LogsEntries s (delCommand ctx s (Opcode.name .del :: args)).1
          unfold delCommand checkSyntaxHelper
          dsimp only
          split
          · exact logsEntries_append rfl ⟨.del args, rfl⟩
          · exact .refl s
      | evict =>
          show LogsEntries s (evictCommand ctx s (Opcode.name .evict :: args)).1
          unfold evictCommand checkSyntaxHelper
          dsimp only
          split
          · split
            · exact .refl s
            · rename_i n _
              unfold Engine.addIntoAppendable
              cases ctx.sync with
              | true =>
                  refine ⟨_, rfl, ?_⟩
                  intro argv hargv
                  rw [List.mem_singleton.mp hargv]
                  exact ⟨.del (s.holder.keyEviction ctx.policy n ctx.evict).2, rfl⟩
              | false => exact .of_log_eq rfl
          · exact .refl s
      | expire => exact expire_logs _
      | expireat =>
          show LogsEntries s (expireAtCommand ctx s (Opcode.name .expireat :: args)).1
          unfold expireAtCommand checkSyntaxHelper
          split
          · split
            · exact .refl s
            · exact expire_logs _
          · exact .refl s
      | _ => cases hs

/-- The eviction in front of a command logs a `del`. -/
theorem lazyEviction_logs : LogsEntries s (s.lazyEviction ctx) := by
  unfold Engine.lazyEviction
  split
  · exact .refl s
  · rename_i env _
    refine ⟨_, rfl, ?_⟩
    intro argv hargv
    rw [List.mem_singleton.mp hargv]
    exact ⟨.del (s.holder.keyEviction ctx.policy 16 env).2, rfl⟩

theorem command_logs (hok : s.holder.Ok) (argv : List Bytes) :
    LogsEntries s (s.handleCommand ctx argv).1 := by
  unfold Engine.handleCommand
  dsimp only
  split
  · exact .refl s
  · rename_i op hop
    have hname : op.name = (arg argv 0).map toLower := Opcode.name_of_ofBytes hop
    rw [← hname]
    exact lazyEviction_logs.trans (handler_logs (frame_lazyEviction hok).ok op _)

end

/-- Timers log nothing. -/
theorem timers_log (stale : Bytes) (cbs : List Callback) : ∀ (s : Engine),
    (cbs.foldl (Engine.runCallback stale) s).log = s.log := by
  induction cbs with
  | nil => intro s; rfl
  | cons cb cbs ih =>
    intro s
    rw [List.foldl_cons, ih]
    cases cb with
    | byValue key => rfl
    | byReference => rfl

theorem step_logs {s : Engine} (hok : s.holder.Ok) (ev : Event) : LogsEntries s (s.step ev) := by
  cases ev with
  | command ctx argv => exact command_logs hok argv
  | timers now stale => exact .of_log_eq (timers_log stale _ { s with tev := _ })

theorem run_logs (events : List Event) : ∀ (s : Engine), s.holder.Ok →
    LogsEntries s (s.run events) := by
  induction events with
  | nil => intro s _; exact .refl s
  | cons ev events ih =>
    intro s hok
    exact (step_logs hok ev).trans (ih _ (step_core hok ev).1)

/-! ## Files -/

/-- The commands in a file that processes have written one after the other.
Each of them appends to what it finds, whatever it has restored or loaded. -/
inductive Aof : List (List Bytes) → Prop where
  | empty : Aof []
  | life (s : Engine) (hok : s.holder.Ok) (events : List Event) (before : Aof s.log) :
      Aof (s.run events).log

/-- The file of a process that started with nothing. -/
theorem aof_run (events : List Event) : Aof (Engine.new.run events).log :=
  .life .new KVContainer.ok_new events .empty

/-- A file is a list of entries. -/
theorem Aof.entries {file : List (List Bytes)} (h : Aof file) : ∀ argv ∈ file, Loggable argv := by
  induction h with
  | empty => intro argv h; cases h
  | life s hok events before ih =>
      obtain ⟨new, hlog, hnew⟩ := run_logs events s hok
      intro argv hargv
      rw [hlog] at hargv
      rcases List.mem_append.mp hargv with h | h
      · exact ih argv h
      · exact hnew argv h

end LiteKV
