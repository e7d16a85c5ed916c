import EmbeddedExpr.Host.Value

/-!
# Host values and their members

The members of an array are its items and those of a record the values of its fields.  As with
runtime values, what passes from the members to the value holds of all values
(`HostValue.induct`), and a property may hold throughout a value (`HostValue.Throughout`).

The fields of every record stand in strictly ascending order of their names
(`HostValue.WellFormed`).
-/

namespace EmbeddedExpr.HostValue

/-- The items of an array and the values of the fields of a record. -/
def members : HostValue → List HostValue
  | array items => items
  | record fields => fields.map Prod.snd
  | _ => []

theorem sizeOf_lt_of_mem_members {m h : HostValue} (hm : m ∈ h.members) : sizeOf m < sizeOf h := by
  cases h with
  | array items =>
      have hlt : sizeOf m < sizeOf items := List.sizeOf_lt_of_mem hm
      simp only [array.sizeOf_spec]
      omega
  | record fields =>
      obtain ⟨⟨name, m⟩, hmem, rfl⟩ := List.mem_map.mp hm
      have hlt := List.sizeOf_lt_of_mem hmem
      simp only [record.sizeOf_spec, Prod.mk.sizeOf_spec] at hlt ⊢
      omega
  | _ => cases hm

/-- What passes from the members of a host value to the value holds of all of them. -/
theorem induct {motive : HostValue → Prop}
    (step : ∀ h, (∀ m ∈ h.members, motive m) → motive h) (h : HostValue) : motive h :=
  step h fun m hm =>
    have := sizeOf_lt_of_mem_members hm
    induct step m
termination_by sizeOf h

/-- The property holds of a host value, its members, their members, and so on. -/
inductive Throughout (good : HostValue → Prop) : HostValue → Prop
  | intro {h : HostValue} (here : good h) (members : ∀ m ∈ h.members, Throughout good m) :
      Throughout good h

namespace Throughout

variable {good : HostValue → Prop} {h m : HostValue}

theorem here (hgood : Throughout good h) : good h := by
  cases hgood
  assumption

theorem member (hgood : Throughout good h) (hm : m ∈ h.members) : Throughout good m := by
  cases hgood with
  | intro _ hmembers => exact hmembers m hm

/-- A host value with no members has to pass alone. -/
theorem leaf (hgood : good h) (hnone : h.members = []) : Throughout good h :=
  .intro hgood (by simp [hnone])

end Throughout

/-- The names of the fields ascend. -/
def Sorted : HostValue → Prop
  | record fields => fields.Pairwise fun a b => compareText a.1 b.1 = .lt
  | _ => True

/-- The names of the fields of every record in a value ascend. -/
def WellFormed (h : HostValue) : Prop := Throughout Sorted h

end EmbeddedExpr.HostValue
