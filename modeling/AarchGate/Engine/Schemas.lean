/-
# Schemas that are registered again

`ApexEngine::register_schema` stores a schema twice.  `SchemaRegistry` keeps the fields of
the first registration of a name, from which `set_expression` and `set_logic` take the
offsets; `schema_metadata_` keeps the last one, from which `execute` takes the row stride
and the native entry points the layout.

`consistent_iff`: the two agree on a field exactly if the first and the last registration
of the schema do, whatever was registered in between.
-/

import AarchGate.Engine.Model

namespace AarchGate
namespace Engine

open Ir AarchGate.Core

/-- The arguments of a call of `register_schema`. -/
structure Registration where
  schemaName : Name
  fields : List FieldDescriptor
  totalRowStride : ℕ

/-- The first descriptor of a name. -/
def Registration.field (r : Registration) (f : Name) : Option FieldDescriptor :=
  r.fields.find? fun d => d.name = f

/-- What the registry keeps of a registration … -/
def Registration.fieldMap (r : Registration) : Map Name FieldDescriptor :=
  r.fields.foldl (fun m (d : FieldDescriptor) => m.emplace d.name d) Map.empty

/-- … and what the metadata keeps. -/
def Registration.metadata (r : Registration) : SchemaMetadata := ⟨r.totalRowStride, r.fields⟩

theorem Registration.fieldMap_apply (r : Registration) (f : Name) : r.fieldMap f = r.field f := by
  simp [fieldMap, field, Map.foldl_emplace, Map.empty]

/-- The registrations of a schema. -/
def registrationsOf (rs : List Registration) (schemaName : Name) : List Registration :=
  rs.filter fun r => r.schemaName = schemaName

namespace ApexEngine

/-- A sequence of calls of `register_schema`. -/
def registerAll (E : ApexEngine) (rs : List Registration) : ApexEngine :=
  rs.foldl (fun E r => E.registerSchema r.schemaName r.fields r.totalRowStride) E

/-- The registry and the metadata agree on a field. -/
def Consistent (E : ApexEngine) (schemaName f : Name) : Prop :=
  E.registry.getField schemaName f =
    (E.schemaMetadata schemaName).bind fun md => md.fields.find? fun d => d.name = f

/-- The calls as writes to the two maps. -/
theorem registerAll_maps (rs : List Registration) (E : ApexEngine) :
    (E.registerAll rs).registry.schemas =
        rs.foldl (fun m r => m.emplace r.schemaName r.fieldMap) E.registry.schemas ∧
      (E.registerAll rs).schemaMetadata =
        rs.foldl (fun m r => m.assign r.schemaName r.metadata) E.schemaMetadata := by
  induction rs generalizing E with
  | nil => exact ⟨rfl, rfl⟩
  | cons r rs ih => exact ih (E.registerSchema r.schemaName r.fields r.totalRowStride)

/-- **The registry holds the first registration** of a schema … -/
theorem getField_registerAll (rs : List Registration) (schemaName f : Name) :
    (init.registerAll rs).registry.getField schemaName f =
      (registrationsOf rs schemaName).head?.bind fun r => r.field f := by
  rw [SchemaRegistry.getField, (registerAll_maps rs init).1,
    Map.foldl_emplace Registration.schemaName Registration.fieldMap, registrationsOf,
    List.head?_filter]
  cases rs.find? fun r => r.schemaName = schemaName with
  | none => rfl
  | some r => exact r.fieldMap_apply f

/-- … and the metadata the last one. -/
theorem schemaMetadata_registerAll (rs : List Registration) (schemaName : Name) :
    (init.registerAll rs).schemaMetadata schemaName =
      (registrationsOf rs schemaName).getLast?.map Registration.metadata := by
  rw [(registerAll_maps rs init).2,
    Map.foldl_assign Registration.schemaName Registration.metadata, registrationsOf]
  exact Option.or_none

/-- **The two stores after any sequence of registrations.**  They agree on the field `f` of a
schema if and only if the first and the last registration of the schema have the same first
descriptor of that name, or both none. -/
theorem consistent_iff (rs : List Registration) (schemaName f : Name) :
    Consistent (init.registerAll rs) schemaName f ↔
      ∀ first last, (registrationsOf rs schemaName).head? = some first →
        (registrationsOf rs schemaName).getLast? = some last → first.field f = last.field f := by
  rw [Consistent, getField_registerAll, schemaMetadata_registerAll]
  cases hrs : registrationsOf rs schemaName with
  | nil => simp
  | cons r rest =>
    rw [List.head?_cons, List.getLast?_cons]
    simp [Registration.field, Registration.metadata]

/-- The field `a` moves from offset 0 to offset 8 and the rows grow from 8 to 16 bytes: the
engine has the old offset with the new stride. -/
theorem registered_again_drifts :
    let E := init.registerAll [⟨['t'], [⟨['a'], 0, 64, .UINT64⟩], 8⟩,
      ⟨['t'], [⟨['b'], 0, 64, .UINT64⟩, ⟨['a'], 8, 64, .UINT64⟩], 16⟩]
    E.registry.getField ['t'] ['a'] = some ⟨['a'], 0, 64, .UINT64⟩ ∧
      (E.schemaMetadata ['t']).map (·.rowStride) = some 16 ∧
      ((E.schemaMetadata ['t']).bind fun md => md.fields.find? fun d => d.name = ['a']) =
        some ⟨['a'], 8, 64, .UINT64⟩ ∧
      E.registry.getField ['t'] ['b'] = none := by
  refine ⟨rfl, rfl, rfl, rfl⟩

end ApexEngine
end Engine
end AarchGate
