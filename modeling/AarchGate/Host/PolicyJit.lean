/-
# The compiled policy

`PolicyEngine::init_JIT_schema` and `evaluate_batch` of `src/host/policy_engine.cpp`:
the policy as an expression over the fields of a `SyscallTraceRecord`, compiled by
the engine, and the number of records of a batch on which it holds.

**The compiled policy and the direct test agree**: the constructor compiles the
policy in every pool with room for its 18 nodes, and `evaluate_batch` counts the
records with `is_violation`, whatever words their fields hold
(`evaluateBatch_correct`).
-/

import AarchGate.Engine.Correct
import AarchGate.Host.Policy
import AarchGate.Ir.Build
import AarchGate.Jit.Accept

namespace AarchGate
namespace Host

open A64 Ir AarchGate.Core Compute Engine
open Ir.Builder
open Engine.ApexEngine (load64 load64_of_bytes rowOf rowTotal)
open Jit (Fault)

/-! ### The policy -/

/-- The expression `init_JIT_schema` builds. -/
def buildPolicy : StateM NodePool (Option ℕ) := do
  let isPreinstall ← Load "is_preinstall".toList
  let eventType ← Load "event_type".toList
  let isSensitive ← Load "is_sensitive".toList
  let isUnauthorized ← Load "is_unauthorized".toList
  let isPreinstallMask ← EQ isPreinstall (← Const 1)
  let isSensitiveMask ← EQ isSensitive (← Const 1)
  let isUnauthorizedMask ← EQ isUnauthorized (← Const 1)
  let openCheck ← And (← EQ eventType (← Const eventOpen)) isSensitiveMask
  let connectCheck ← And (← EQ eventType (← Const eventConnect)) isUnauthorizedMask
  let violationCheck ← Or openCheck connectCheck
  And isPreinstallMask violationCheck

/-- The fields of the schema, at the offsets of `SyscallTraceRecord`. -/
def policyFields : List FieldDescriptor :=
  [⟨"pid".toList, 0, 64, .UINT64⟩, ⟨"ppid".toList, 8, 64, .UINT64⟩,
    ⟨"event_type".toList, 16, 64, .UINT64⟩, ⟨"is_preinstall".toList, 24, 64, .UINT64⟩,
    ⟨"is_sensitive".toList, 32, 64, .UINT64⟩, ⟨"is_unauthorized".toList, 40, 64, .UINT64⟩]

/-- `sizeof(SyscallTraceRecord)`. -/
def recordSize : ℕ := 64

/-- `PolicyEngine::init_JIT_schema`: the engine of a new `PolicyEngine`. -/
def initJitSchema (PF : Platform) (P : NodePool) : Except Fault ApexEngine :=
  let r := buildPolicy P
  (ApexEngine.setExpression PF
    (ApexEngine.init.registerSchema "SyscallTrace".toList policyFields recordSize)
    "SyscallTrace".toList r.2.storage r.2.annot r.1 .BIT_SLICED).map (·.2)

/-- `PolicyEngine::evaluate_batch`. -/
def evaluateBatch (PF : Platform) (E : ApexEngine) (records : ℕ → BitVec 8) (count : ℕ) :
    Option (Word × ApexEngine) :=
  if count = 0 then some (0, E) else ApexEngine.execute PF E records count

/-! ### Its meaning -/

/-- `field == v`. -/
def fieldIs (field : String) (v : Word) : Expr .bool := .cmp .eq (.load field.toList) (.const v)

/-- The policy as a row expression. -/
def policy : Expr .bool :=
  .and (fieldIs "is_preinstall" 1)
    (.or (.and (fieldIs "event_type" eventOpen) (fieldIs "is_sensitive" 1))
      (.and (fieldIs "event_type" eventConnect) (fieldIs "is_unauthorized" 1)))

/-- **The builder calls give the policy**, in every pool with room for 18 nodes. -/
theorem buildPolicy_holds {P : NodePool} (hP : Ready P 18) :
    ∃ root P', buildPolicy P = (some root, P') ∧ Built P' ∧ Holds P' policy root := by
  obtain ⟨pre, P₁, e₁, hP, -, hpre⟩ := load_rule hP "is_preinstall".toList
  obtain ⟨event, P₂, e₂, hP, k₂, hevent⟩ := load_rule hP "event_type".toList
  obtain ⟨sens, P₃, e₃, hP, k₃, hsens⟩ := load_rule hP "is_sensitive".toList
  obtain ⟨unauth, P₄, e₄, hP, k₄, hunauth⟩ := load_rule hP "is_unauthorized".toList
  -- the masks of the three flags
  obtain ⟨c₁, P₅, e₅, hP, k₅, hc₁⟩ := const_rule hP 1
  obtain ⟨preMask, P₆, e₆, hP, k₆, hpreMask⟩ := eq_rule hP (k₅ <| k₄ <| k₃ <| k₂ hpre) hc₁
  obtain ⟨c₂, P₇, e₇, hP, k₇, hc₂⟩ := const_rule hP 1
  obtain ⟨sensMask, P₈, e₈, hP, k₈, hsensMask⟩ := eq_rule hP (k₇ <| k₆ <| k₅ <| k₄ hsens) hc₂
  obtain ⟨c₃, P₉, e₉, hP, k₉, hc₃⟩ := const_rule hP 1
  obtain ⟨unauthMask, P₁₀, e₁₀, hP, k₁₀, hunauthMask⟩ :=
    eq_rule hP (k₉ <| k₈ <| k₇ <| k₆ <| k₅ hunauth) hc₃
  have hevent₁₀ := k₁₀ <| k₉ <| k₈ <| k₇ <| k₆ <| k₅ <| k₄ <| k₃ hevent
  -- the two checks
  obtain ⟨c₄, P₁₁, e₁₁, hP, k₁₁, hc₄⟩ := const_rule hP eventOpen
  obtain ⟨isOpen, P₁₂, e₁₂, hP, k₁₂, hopen⟩ := eq_rule hP (k₁₁ hevent₁₀) hc₄
  obtain ⟨openCheck, P₁₃, e₁₃, hP, k₁₃, hopenCheck⟩ :=
    and_rule hP hopen (k₁₂ <| k₁₁ <| k₁₀ <| k₉ hsensMask)
  obtain ⟨c₅, P₁₄, e₁₄, hP, k₁₄, hc₅⟩ := const_rule hP eventConnect
  obtain ⟨isConnect, P₁₅, e₁₅, hP, k₁₅, hconnect⟩ :=
    eq_rule hP (k₁₄ <| k₁₃ <| k₁₂ <| k₁₁ hevent₁₀) hc₅
  obtain ⟨connectCheck, P₁₆, e₁₆, hP, k₁₆, hconnectCheck⟩ :=
    and_rule hP hconnect (k₁₅ <| k₁₄ <| k₁₃ <| k₁₂ <| k₁₁ hunauthMask)
  obtain ⟨check, P₁₇, e₁₇, hP, k₁₇, hcheck⟩ :=
    or_rule hP (k₁₆ <| k₁₅ <| k₁₄ hopenCheck) hconnectCheck
  have hpreMask₁₇ := k₁₇ <| k₁₆ <| k₁₅ <| k₁₄ <| k₁₃ <| k₁₂ <| k₁₁ <| k₁₀ <| k₉ <| k₈ <| k₇ hpreMask
  obtain ⟨root, P₁₈, e₁₈, hP, -, hroot⟩ := and_rule hP hpreMask₁₇ hcheck
  refine ⟨root, P₁₈, ?_, hP.built, hroot⟩
  rw [buildPolicy, bind_run e₁, bind_run e₂, bind_run e₃, bind_run e₄, bind_run e₅, bind_run e₆,
    bind_run e₇, bind_run e₈, bind_run e₉, bind_run e₁₀, bind_run e₁₁, bind_run e₁₂, bind_run e₁₃,
    bind_run e₁₄, bind_run e₁₅, bind_run e₁₆, bind_run e₁₇]
  exact e₁₈

/-- Without that room there is no expression. -/
theorem buildPolicy_fails : FailsWithout 18 buildPolicy := by
  unfold buildPolicy
  iterate 17 refine emplace_bind_fails fun _ => ?_
  exact emplace_fails _ _

/-! ### Records in memory -/

/-- The record at index `r` of an array in memory. -/
def recordOf (data : ℕ → BitVec 8) (r : ℕ) : SyscallTraceRecord where
  pid := load64 data (r * recordSize)
  ppid := load64 data (r * recordSize + 8)
  eventType := load64 data (r * recordSize + 16)
  isPreinstall := load64 data (r * recordSize + 24)
  isSensitive := load64 data (r * recordSize + 32)
  isUnauthorized := load64 data (r * recordSize + 40)

/-- The memory holds the records, one after the other. -/
def InMemory (data : ℕ → BitVec 8) (records : List SyscallTraceRecord) : Prop :=
  ∀ (r : ℕ) (record : SyscallTraceRecord), records[r]? = some record → recordOf data r = record

/-- The policy on the row of a record is the direct test. -/
theorem policy_eval (data : ℕ → BitVec 8) (r : ℕ) :
    policy.eval (rowOf policyFields data recordSize r) = isViolation (recordOf data r) := by
  have hpre : rowOf policyFields data recordSize r "is_preinstall".toList =
      load64 data (r * recordSize + 24) := rfl
  have hevent : rowOf policyFields data recordSize r "event_type".toList =
      load64 data (r * recordSize + 16) := rfl
  have hsens : rowOf policyFields data recordSize r "is_sensitive".toList =
      load64 data (r * recordSize + 32) := rfl
  have hunauth : rowOf policyFields data recordSize r "is_unauthorized".toList =
      load64 data (r * recordSize + 40) := rfl
  simp only [policy, fieldIs, Expr.eval, Expr.evalWith, Cmp.holds, hpre, hevent, hsens, hunauth,
    isViolation, recordOf]
  congr 1
  rw [Bool.and_comm (decide _) (decide _), Bool.and_comm (decide (_ = eventConnect)) (decide _)]
  rfl

/-- Rows that are those of a list are counted by it. -/
theorem rowTotal_countP {α : Type} {p : α → Bool} {l : List α} {v : ℕ → Bool}
    (h : ∀ r x, l[r]? = some x → v r = p x) :
    rowTotal (t := .bool) v l.length = BitVec.ofNat 64 (l.countP p) := by
  have hcard : ((Finset.range l.length).filter fun r => v r = true).card = l.countP p := by
    induction l using List.reverseRecOn with
    | nil => rfl
    | append_singleton l x ih =>
      have hl : ∀ r y, l[r]? = some y → v r = p y := fun r y hr =>
        h r y (by rw [List.getElem?_append_left (List.getElem?_eq_some_iff.1 hr).1]; exact hr)
      have hx : v l.length = p x := h l.length x (by simp)
      rw [List.length_append, List.length_singleton, Finset.range_add_one, Finset.filter_insert,
        List.countP_append, ← ih hl, hx]
      cases hp : p x <;> simp [hp]
  show BitVec.ofNat 64 _ = _
  rw [hcard]

/-! ### Agreement -/

theorem map_ok {ε α β : Type} {x : Except ε α} {f : α → β} {b : β} (h : x.map f = .ok b) :
    ∃ v, x = .ok v ∧ f v = b := by
  cases x with
  | error => cases h
  | ok v =>
    cases h
    exact ⟨v, rfl, rfl⟩

section Agreement

variable {PF : Platform} {E : ApexEngine}

/-- The constructor compiles the policy. -/
theorem initJitSchema_ok (PF : Platform) (hrt : ∀ code, PF.rt code = true) {P : NodePool}
    (hP : Ready P 18) :
    ∃ root P' a E, Built P' ∧ Holds P' policy root ∧ ApexEngine.setExpression PF
        (ApexEngine.init.registerSchema "SyscallTrace".toList policyFields recordSize)
        "SyscallTrace".toList P'.storage P'.annot (some root) .BIT_SLICED = .ok (a, E) ∧
      E.exprLogic ≠ [] ∧ initJitSchema PF P = .ok E := by
  obtain ⟨root, P', hbuild, hbuilt, hroot⟩ := buildPolicy_holds hP
  obtain ⟨a, code, hcomp⟩ := Jit.compile_isOk hbuilt hrt P'.annot hroot.represents rfl (by decide)
    ((Jit.AtMostCompound.of_represents hroot.represents).mono (by decide))
    (.of_all hroot.represents rfl) 64
  obtain ⟨E, hset, hacc⟩ := ApexEngine.setExpression_accepts
    (ApexEngine.init.registerSchema "SyscallTrace".toList policyFields recordSize)
    "SyscallTrace".toList hroot.represents hcomp
  refine ⟨root, P', a, E, hbuilt, hroot, hset, hacc, ?_⟩
  rw [initJitSchema, hbuild]
  simp only [hset]
  rfl

/-- A policy that was compiled counts the violations of a batch. -/
theorem evaluateBatch_counts {P : NodePool} (hP : Built P) {root : ℕ} (hroot : Holds P policy root)
    {a : ℕ → Annot} (hset : ApexEngine.setExpression PF
      (ApexEngine.init.registerSchema "SyscallTrace".toList policyFields recordSize)
      "SyscallTrace".toList P.storage P.annot (some root) .BIT_SLICED = .ok (a, E))
    (hacc : E.exprLogic ≠ []) (bufs : ℕ → ColumnBuffer) {data : ℕ → BitVec 8}
    {records : List SyscallTraceRecord} (hmem : InMemory data records) :
    ∃ E', evaluateBatch PF { E with fieldBuffers := bufs } data records.length =
      some (BitVec.ofNat 64 (records.countP isViolation), E') := by
  obtain ⟨-, hexec⟩ := ApexEngine.bitSliced_execute hP hroot.represents rfl rfl hroot.fresh rfl rfl
    (by decide) hset hacc
  have htotal : rowTotal (fun r => policy.eval (rowOf policyFields data recordSize r))
      records.length = BitVec.ofNat 64 (records.countP isViolation) :=
    rowTotal_countP fun r record hr => by rw [policy_eval, hmem r record hr]
  unfold evaluateBatch
  split_ifs with hcount
  · obtain rfl := List.length_eq_zero_iff.1 hcount
    exact ⟨_, rfl⟩
  · rw [← htotal]
    exact hexec bufs data records.length

/-- The batch changes the buffers of the engine at most. -/
theorem evaluateBatch_engine {data : ℕ → BitVec 8} {count : ℕ} {v : Word} {E' : ApexEngine}
    (h : evaluateBatch PF E data count = some (v, E')) :
    ∃ bufs, E' = { E with fieldBuffers := bufs } := by
  unfold evaluateBatch ApexEngine.execute at h
  split_ifs at h with hcount
  · cases h
    exact ⟨_, rfl⟩
  · split at h
    · cases h
      exact ⟨_, rfl⟩
    · split_ifs at h
      · cases h
        exact ⟨_, rfl⟩
      · obtain ⟨r, -, hr⟩ := Option.map_eq_some_iff.1 h
        cases hr
        exact ⟨_, rfl⟩

/-- Without a logic nothing is counted. -/
theorem evaluateBatch_empty (h : E.exprLogic = []) (data : ℕ → BitVec 8) (count : ℕ) :
    evaluateBatch PF E data count = some (0, E) := by
  have hnone : E.firstLogic PF = none := by simp [ApexEngine.firstLogic, h]
  rw [evaluateBatch, ApexEngine.execute, hnone]
  split_ifs <;> rfl

/-- **A batch without violations evaluates to zero**, also on an engine whose constructor
has not compiled the policy. -/
theorem evaluateBatch_clean {P : NodePool} (hP : Built P) (hinit : initJitSchema PF P = .ok E)
    (bufs : ℕ → ColumnBuffer) {data : ℕ → BitVec 8} {records : List SyscallTraceRecord}
    (hmem : InMemory data records) (hclean : ∀ record ∈ records, isViolation record = false) :
    ∃ E', evaluateBatch PF { E with fieldBuffers := bufs } data records.length = some (0, E') := by
  simp only [initJitSchema] at hinit
  obtain ⟨⟨a, E₁⟩, hset, rfl⟩ := map_ok hinit
  by_cases hacc : E₁.exprLogic = []
  · exact ⟨_, evaluateBatch_empty (E := { E₁ with fieldBuffers := bufs }) hacc data _⟩
  by_cases hroom : P.nextIdx + 18 ≤ NodePool.maxNodes
  · obtain ⟨root, P', hbuild, hbuilt, hroot⟩ := buildPolicy_holds ⟨hP, hroom⟩
    rw [hbuild] at hset
    have hzero : records.countP isViolation = 0 :=
      List.countP_eq_zero.2 fun record hr => by rw [hclean record hr]; decide
    obtain ⟨E', hE'⟩ := evaluateBatch_counts hbuilt hroot hset hacc bufs hmem
    rw [hzero] at hE'
    exact ⟨E', hE'⟩
  · rw [buildPolicy_fails P (by omega)] at hset
    have hE₁ : ApexEngine.init.registerSchema "SyscallTrace".toList policyFields recordSize = E₁ :=
      congrArg Prod.snd (Except.ok.inj hset)
    rw [← hE₁] at hacc
    exact absurd rfl hacc

end Agreement

/-- **The compiled policy and the direct test agree.**  A new `PolicyEngine` compiles its
policy, and after any calls, which leave anything in its buffers, `evaluate_batch`
returns the number of violations in the batch. -/
theorem evaluateBatch_correct (PF : Platform) (hrt : ∀ code, PF.rt code = true) {P : NodePool}
    (hP : Ready P 18) :
    ∃ E, initJitSchema PF P = .ok E ∧
      ∀ (bufs : ℕ → ColumnBuffer) (data : ℕ → BitVec 8) (records : List SyscallTraceRecord),
        InMemory data records →
          ∃ E', evaluateBatch PF { E with fieldBuffers := bufs } data records.length =
            some (BitVec.ofNat 64 (records.countP isViolation), E') := by
  obtain ⟨root, P', a, E, hbuilt, hroot, hset, hacc, hinit⟩ := initJitSchema_ok PF hrt hP
  exact ⟨E, hinit, fun bufs data records hmem =>
    evaluateBatch_counts hbuilt hroot hset hacc bufs hmem⟩

/-- The bytes of an array of records; the padding is zero. -/
def storeRecords (records : List SyscallTraceRecord) (p : ℕ) : BitVec 8 :=
  match records[p / recordSize]? with
  | none => 0
  | some record =>
    let words := [record.pid, record.ppid, record.eventType, record.isPreinstall,
      record.isSensitive, record.isUnauthorized]
    (words.getD (p % recordSize / 8) 0).extractLsb' (8 * (p % 8)) 8

/-- **Every batch can be in memory.** -/
theorem inMemory_storeRecords (records : List SyscallTraceRecord) :
    InMemory (storeRecords records) records := by
  intro r record hr
  have hword : ∀ k < 8, load64 (storeRecords records) (r * recordSize + 8 * k) =
      [record.pid, record.ppid, record.eventType, record.isPreinstall, record.isSensitive,
        record.isUnauthorized].getD k 0 := by
    intro k hk
    refine load64_of_bytes fun j hj => ?_
    have hrow : (r * recordSize + 8 * k + j) / recordSize = r := by
      rw [recordSize]
      omega
    have hfield : (r * recordSize + 8 * k + j) % recordSize / 8 = k := by
      rw [recordSize]
      omega
    have hbyte : (r * recordSize + 8 * k + j) % 8 = j := by
      rw [recordSize]
      omega
    simp only [storeRecords, hrow, hr, hfield, hbyte]
  rw [recordOf]
  ext1
  · exact hword 0 (by omega)
  · exact hword 1 (by omega)
  · exact hword 2 (by omega)
  · exact hword 3 (by omega)
  · exact hword 4 (by omega)
  · exact hword 5 (by omega)

/-- Three records, of which the first is a violation. -/
def sampleRecords : List SyscallTraceRecord :=
  [⟨101, 100, eventOpen, 1, 1, 0⟩, ⟨102, 1, eventConnect, 0, 0, 1⟩, ⟨101, 100, eventOpen, 1, 2, 1⟩]

theorem evaluateBatch_correct_sample :
    ∃ E E', initJitSchema .standard NodePool.empty = .ok E ∧
      evaluateBatch .standard E (storeRecords sampleRecords) 3 = some (1, E') := by
  obtain ⟨E, hinit, hbatch⟩ := evaluateBatch_correct .standard (fun _ => rfl)
    (P := NodePool.empty) ⟨.empty, by decide⟩
  obtain ⟨E', hrun⟩ := hbatch E.fieldBuffers _ _ (inMemory_storeRecords sampleRecords)
  exact ⟨E, E', hinit, hrun⟩

end Host
end AarchGate
