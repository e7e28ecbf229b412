/-
# The schema registry

`include/apex/core/types.hpp` and `src/core/registry.cpp`.  A map of the
standard library that is only looked up in is a function to `Option`; `emplace`
keeps the value of a key that is present already.
-/

import AarchGate.Ir.Node

namespace AarchGate
namespace Core

open Ir (Name)

/-- `core::DataType`. -/
inductive DataType where
  | UINT64 | INT64 | UINT32 | INT32 | FLOAT64
  deriving DecidableEq, Repr

/-- `core::FieldDescriptor`. -/
structure FieldDescriptor where
  name : Name
  offset : ℕ
  bitWidth : ℕ
  type : DataType
  deriving DecidableEq, Repr

/-- A map with keys `κ`, as far as `find` sees it. -/
abbrev Map (κ ν : Type) := κ → Option ν

namespace Map

variable {κ ν : Type} [DecidableEq κ]

/-- The empty map. -/
def empty : Map κ ν := fun _ => none

/-- `map[k] = v`. -/
def assign (m : Map κ ν) (k : κ) (v : ν) : Map κ ν := fun x => if x = k then some v else m x

/-- `map.emplace(k, v)`. -/
def emplace (m : Map κ ν) (k : κ) (v : ν) : Map κ ν := if (m k).isSome then m else m.assign k v

/-- The entry that was written. -/
@[simp] theorem assign_self (m : Map κ ν) (k : κ) (v : ν) : m.assign k v k = some v := by
  simp [assign]

/-- The others stay. -/
theorem assign_ne (m : Map κ ν) {k x : κ} (h : x ≠ k) (v : ν) : m.assign k v x = m x := by
  simp [assign, h]

/-- A new key is written. -/
theorem emplace_of_none {m : Map κ ν} {k : κ} (h : m k = none) (v : ν) :
    m.emplace k v = m.assign k v := by
  simp [emplace, h]

/-- An entry that is there stays. -/
@[simp] theorem emplace_self (m : Map κ ν) (k : κ) (v : ν) :
    m.emplace k v k = some ((m k).getD v) := by
  cases h : m k <;> simp [emplace, h]

/-- The others stay too. -/
theorem emplace_ne (m : Map κ ν) {k x : κ} (h : x ≠ k) (v : ν) : m.emplace k v x = m x := by
  rw [emplace]
  split_ifs
  · rfl
  · exact assign_ne m h v

/-- Whether an entry that is present is kept or overwritten makes no difference exactly if it
is the same. -/
theorem emplace_eq_assign_iff (m : Map κ ν) (k : κ) (v : ν) :
    m.emplace k v = m.assign k v ↔ ∀ w, m k = some w → w = v := by
  constructor
  · intro h w hw
    have hk := congrFun h k
    rw [emplace_self, assign_self, hw] at hk
    exact Option.some.inj hk
  · intro h
    cases hk : m k with
    | none => exact emplace_of_none hk v
    | some w =>
      funext x
      rw [emplace, if_pos (by rw [hk]; rfl)]
      by_cases hx : x = k
      · rw [hx, hk, assign_self, h w hk]
      · rw [m.assign_ne hx]

section Fold

variable {α : Type} (key : α → κ) (val : α → ν) (xs : List α) (m : Map κ ν) (k : κ)

/-- **Of several entries the first one is kept** by `emplace` … -/
theorem foldl_emplace : xs.foldl (fun m x => m.emplace (key x) (val x)) m k =
    (m k).or ((xs.find? fun x => key x = k).map val) := by
  induction xs generalizing m with
  | nil => simp
  | cons x xs ih =>
    rw [List.foldl_cons, ih]
    by_cases hx : key x = k
    · subst hx
      cases hm : m (key x) <;> simp [hm]
    · rw [m.emplace_ne (Ne.symm hx), List.find?_cons_of_neg (by simpa using hx)]

/-- … and the last one by assignment. -/
theorem foldl_assign : xs.foldl (fun m x => m.assign (key x) (val x)) m k =
    ((xs.filter fun x => key x = k).getLast?.map val).or (m k) := by
  induction xs generalizing m with
  | nil => simp
  | cons x xs ih =>
    rw [List.foldl_cons, ih]
    by_cases hx : key x = k
    · subst hx
      rw [List.filter_cons_of_pos (by simp), List.getLast?_cons, assign_self]
      cases (xs.filter fun y => key y = key x).getLast? <;> rfl
    · rw [m.assign_ne (Ne.symm hx), List.filter_cons_of_neg (by simpa using hx)]

end Fold

end Map

/-- `SchemaRegistry`. -/
structure SchemaRegistry where
  schemas : Map Name (Map Name FieldDescriptor)

namespace SchemaRegistry

/-- A registry without schemas. -/
def empty : SchemaRegistry := ⟨Map.empty⟩

/-- `SchemaRegistry::register_schema`: a schema registered already stays as it is,
and so does the first of several fields of one name. -/
def registerSchema (R : SchemaRegistry) (schemaName : Name) (fields : List FieldDescriptor) :
    SchemaRegistry :=
  ⟨R.schemas.emplace schemaName
    (fields.foldl (fun m (f : FieldDescriptor) => m.emplace f.name f) Map.empty)⟩

/-- `SchemaRegistry::get_field`. -/
def getField (R : SchemaRegistry) (schemaName fieldName : Name) : Option FieldDescriptor :=
  (R.schemas schemaName).bind fun m => m fieldName

end SchemaRegistry

/-- **A schema registered once** is looked up by its list of fields. -/
theorem SchemaRegistry.getField_registerSchema {R : SchemaRegistry} {schemaName : Name}
    (h : R.schemas schemaName = none) (fields : List FieldDescriptor) (f : Name) :
    (R.registerSchema schemaName fields).getField schemaName f =
      fields.find? fun d => d.name = f := by
  rw [getField, registerSchema, Map.emplace_of_none h]
  simp [Map.foldl_emplace, Map.empty]

end Core
end AarchGate
