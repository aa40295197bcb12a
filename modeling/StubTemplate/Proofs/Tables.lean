/-
Tables of TOML in which no key stands twice.

A table in the making is `Sound` if what it stands for is a table without a key twice, at any depth. Every rule that
changes a table goes through `update`, which keeps the keys and may add the one that is changed (`keys_update`); so each
rule keeps a table sound, by induction on the path that it follows.
-/
import Mathlib.Data.List.Nodup
import StubTemplate.Toml.Basic

namespace StubTemplate.Toml

/-! ## Tables in a value -/

/-- `part` is the value, or stands in it at any depth -/
inductive Within (part : Toml) : Toml → Prop where
  | self : Within part part
  | item {v : Toml} {items : List Toml} (hv : v ∈ items) (h : Within part v) : Within part (.array items)
  | field {v : Toml} {fields : List (String × Toml)} (hv : v ∈ fields.map Prod.snd) (h : Within part v) :
    Within part (.table fields)

/-- no table in the value has a key twice -/
def Distinct (v : Toml) : Prop := ∀ fields, Within (.table fields) v → (fields.map Prod.fst).Nodup

theorem distinct_array_iff {items : List Toml} : Distinct (.array items) ↔ ∀ v ∈ items, v.Distinct := by
  constructor
  · exact fun h v hv fields hwithin => h fields (.item hv hwithin)
  · intro h fields hwithin
    cases hwithin with
    | item hv hin => exact h _ hv fields hin

theorem distinct_table_iff {fields : List (String × Toml)} :
    Distinct (.table fields) ↔ (fields.map Prod.fst).Nodup ∧ ∀ v ∈ fields.map Prod.snd, v.Distinct := by
  constructor
  · exact fun h => ⟨h fields .self, fun v hv inner hwithin => h inner (.field hv hwithin)⟩
  · rintro ⟨hkeys, h⟩ inner hwithin
    cases hwithin with
    | self => exact hkeys
    | field hv hin => exact h _ hv inner hin

/-- a value that holds no others -/
def IsScalar : Toml → Prop
  | .array _ => False
  | .table _ => False
  | _ => True

theorem IsScalar.distinct {v : Toml} (h : v.IsScalar) : v.Distinct := by
  intro fields hwithin
  cases hwithin with
  | self => cases h
  | item => cases h
  | field => cases h

/-! ## Tables in the making -/

theorem ofItems_eq_map (items : Items) : ofItems items = items.map fun entry => (entry.1, ofItem entry.2) := by
  induction items with
  | nil => rfl
  | cons entry items ih => rw [ofItems, ih, List.map_cons]

theorem ofTables_eq_map (tables : List Items) : ofTables tables = tables.map fun items => .table (ofItems items) := by
  induction tables with
  | nil => rfl
  | cons items tables ih => rw [ofTables, ih, List.map_cons]

/-- the table that has been made so far has no key twice, nor has a table in it -/
def Sound (items : Items) : Prop :=
  (items.map Prod.fst).Nodup ∧ ∀ item ∈ items.map Prod.snd, (ofItem item).Distinct

theorem distinct_ofItems_iff {items : Items} : Distinct (.table (ofItems items)) ↔ Sound items := by
  rw [distinct_table_iff, ofItems_eq_map, Sound, List.map_map, List.map_map, List.forall_mem_map, List.forall_mem_map]
  rfl

theorem keys_update {key : String} {change : Option Item → Option Item} {items changed : Items}
    (h : update key change items = some changed) : changed.map Prod.fst =
      if key ∈ items.map Prod.fst then items.map Prod.fst else items.map Prod.fst ++ [key] := by
  induction items generalizing changed with
  | nil =>
    obtain ⟨item, -, rfl⟩ := Option.map_eq_some_iff.1 h
    rfl
  | cons entry items ih =>
    obtain ⟨k, item⟩ := entry
    rw [update] at h
    split at h
    · rename_i hk
      obtain ⟨new, -, rfl⟩ := Option.map_eq_some_iff.1 h
      simp [hk]
    · rename_i hk
      obtain ⟨rest, hrest, rfl⟩ := Option.map_eq_some_iff.1 h
      have hne : key ≠ k := fun e => hk e.symm
      simp only [List.map_cons, ih hrest, List.mem_cons, hne, false_or]
      split <;> rfl

/-- what stands in a table that has been changed stood there before, or is what the change made -/
theorem mem_items_update {key : String} {change : Option Item → Option Item} {items changed : Items}
    (h : update key change items = some changed) {item : Item} (hitem : item ∈ changed.map Prod.snd) :
    item ∈ items.map Prod.snd ∨ ∃ old, (∀ before ∈ old, before ∈ items.map Prod.snd) ∧ change old = some item := by
  induction items generalizing changed with
  | nil =>
    obtain ⟨new, hnew, rfl⟩ := Option.map_eq_some_iff.1 h
    obtain rfl := List.mem_singleton.1 hitem
    exact .inr ⟨none, nofun, hnew⟩
  | cons entry items ih =>
    obtain ⟨k, first⟩ := entry
    rw [update] at h
    split at h
    · obtain ⟨new, hnew, rfl⟩ := Option.map_eq_some_iff.1 h
      rcases List.mem_cons.1 hitem with rfl | hitem
      · refine .inr ⟨some first, ?_, hnew⟩
        rintro _ ⟨⟩
        exact List.mem_cons_self
      · exact .inl (List.mem_cons_of_mem first hitem)
    · obtain ⟨rest, hrest, rfl⟩ := Option.map_eq_some_iff.1 h
      rcases List.mem_cons.1 hitem with rfl | hitem
      · exact .inl List.mem_cons_self
      · rcases ih hrest hitem with hitem | ⟨old, hold, hchange⟩
        · exact .inl (List.mem_cons_of_mem first hitem)
        · exact .inr ⟨old, fun before hbefore => List.mem_cons_of_mem first (hold before hbefore), hchange⟩

/-- changing what stands under a key keeps a table sound, if what stands there then is -/
theorem Sound.update {items changed : Items} (hitems : Sound items) {key : String}
    {change : Option Item → Option Item}
    (hchange : ∀ old new, (∀ before ∈ old, (ofItem before).Distinct) → change old = some new → (ofItem new).Distinct)
    (h : update key change items = some changed) : Sound changed := by
  constructor
  · rw [keys_update h]
    split
    · exact hitems.1
    · rename_i hnew
      rw [← List.concat_eq_append]
      exact hitems.1.concat hnew
  · intro item hitem
    rcases mem_items_update h hitem with hitem | ⟨old, hold, hnew⟩
    · exact hitems.2 item hitem
    · exact hchange old item (fun before hbefore => hitems.2 before (hold before hbefore)) hnew

theorem sound_nil : Sound [] := ⟨.nil, nofun⟩

theorem distinct_table {origin : Origin} {items : Items} : (ofItem (.table origin items)).Distinct ↔ Sound items := by
  rw [ofItem, distinct_ofItems_iff]

theorem distinct_tables {earlier : List Items} {last : Items} :
    (ofItem (.tables earlier last)).Distinct ↔ (∀ items ∈ earlier, Sound items) ∧ Sound last := by
  rw [ofItem, distinct_array_iff, ofTables_eq_map]
  simp only [List.mem_append, List.mem_reverse, List.mem_map, List.mem_singleton]
  constructor
  · intro h
    refine ⟨fun items hitems => distinct_ofItems_iff.1 (h _ (.inl ⟨items, hitems, rfl⟩)), ?_⟩
    exact distinct_ofItems_iff.1 (h _ (.inr rfl))
  · rintro ⟨hearlier, hlast⟩ v (⟨items, hitems, rfl⟩ | rfl)
    · exact distinct_ofItems_iff.2 (hearlier items hitems)
    · exact distinct_ofItems_iff.2 hlast

theorem Sound.within {change : Items → Option Items}
    (hchange : ∀ items changed, Sound items → change items = some changed → Sound changed) {path : List String}
    {items changed : Items} (hitems : Sound items) (h : within change path items = some changed) : Sound changed := by
  induction path generalizing items changed with
  | nil => exact hchange items changed hitems h
  | cons key path ih =>
    refine hitems.update ?_ h
    intro old new hold hnew
    cases old with
    | none =>
      obtain ⟨inner, hinner, rfl⟩ := Option.map_eq_some_iff.1 hnew
      exact distinct_table.2 (ih sound_nil hinner)
    | some item =>
      have hitem := hold item rfl
      cases item with
      | value v => cases hnew
      | table origin before =>
        obtain ⟨inner, hinner, rfl⟩ := Option.map_eq_some_iff.1 hnew
        exact distinct_table.2 (ih (distinct_table.1 hitem) hinner)
      | tables earlier last =>
        obtain ⟨inner, hinner, rfl⟩ := Option.map_eq_some_iff.1 hnew
        exact distinct_tables.2 ⟨(distinct_tables.1 hitem).1, ih (distinct_tables.1 hitem).2 hinner⟩

theorem Sound.define {items changed : Items} (hitems : Sound items) {key : String} {v : Toml} (hv : v.Distinct)
    (h : define key v items = some changed) : Sound changed := by
  refine hitems.update ?_ h
  intro old new _ hnew
  cases old with
  | none =>
    cases hnew
    rwa [ofItem]
  | some item => cases hnew

theorem Sound.defineFrom {path : List String} {origin : Origin} {items changed : Items} (hitems : Sound items)
    {key : String} {v : Toml} (hv : v.Distinct) (h : defineFrom key v origin path items = some changed) :
    Sound changed := by
  induction path generalizing origin items changed with
  | nil =>
    rw [Toml.defineFrom] at h
    split at h
    · exact hitems.define hv h
    · cases h
  | cons first path ih =>
    refine hitems.update ?_ h
    intro old new hold hnew
    cases old with
    | none =>
      obtain ⟨inner, hinner, rfl⟩ := Option.map_eq_some_iff.1 hnew
      exact distinct_table.2 (ih sound_nil hinner)
    | some item =>
      have hitem := hold item rfl
      cases item with
      | value v => cases hnew
      | table origin before =>
        cases origin with
        | header => cases hnew
        | implied | dotted =>
          obtain ⟨inner, hinner, rfl⟩ := Option.map_eq_some_iff.1 hnew
          exact distinct_table.2 (ih (distinct_table.1 hitem) hinner)
      | tables earlier last =>
        obtain ⟨inner, hinner, rfl⟩ := Option.map_eq_some_iff.1 hnew
        exact distinct_tables.2 ⟨(distinct_tables.1 hitem).1, ih (distinct_tables.1 hitem).2 hinner⟩

theorem Sound.defineAt {path : List String} {items changed : Items} (hitems : Sound items) {key : String} {v : Toml}
    (hv : v.Distinct) (h : defineAt path key v items = some changed) : Sound changed := by
  unfold Toml.defineAt at h
  split at h
  · exact hitems.define hv h
  · exact hitems.defineFrom hv h

theorem Sound.openTable {path : List String} {items changed : Items} (hitems : Sound items) {key : String}
    (h : openTable path key items = some changed) : Sound changed := by
  refine hitems.within ?_ h
  intro inner opened hinner hopened
  refine hinner.update ?_ hopened
  intro old new hold hnew
  cases old with
  | none =>
    cases hnew
    exact distinct_table.2 sound_nil
  | some item =>
    have hitem := hold item rfl
    cases item with
    | value v => cases hnew
    | tables earlier last => cases hnew
    | table origin before =>
      cases origin with
      | header | dotted => cases hnew
      | implied =>
        cases hnew
        exact distinct_table.2 (distinct_table.1 hitem)

theorem Sound.openElement {path : List String} {items changed : Items} (hitems : Sound items) {key : String}
    (h : openElement path key items = some changed) : Sound changed := by
  refine hitems.within ?_ h
  intro inner opened hinner hopened
  refine hinner.update ?_ hopened
  intro old new hold hnew
  cases old with
  | none =>
    cases hnew
    exact distinct_tables.2 ⟨nofun, sound_nil⟩
  | some item =>
    have hitem := hold item rfl
    cases item with
    | value v => cases hnew
    | table origin before => cases hnew
    | tables earlier last =>
      cases hnew
      obtain ⟨hearlier, hlast⟩ := distinct_tables.1 hitem
      exact distinct_tables.2 ⟨List.forall_mem_cons.2 ⟨hlast, hearlier⟩, sound_nil⟩

end StubTemplate.Toml
