/-
Which values count as equal.

Two values are the `Same` if nothing but the order of the entries tells their maps apart, at any depth. Equality looks
from the left map into the right one only. But where no key comes twice, two maps of one length have the same keys if
those of the one are keys of the other, so the entries of the one, put into another order, match those of the other
(`Matches`, `equalsBy_map_iff`). This makes equality symmetric.

Main result: `equalsBy_sound`. Equality is reflexive and symmetric if the comparison of floats is, it never holds
between two kinds of values, and on values without floats it holds exactly of the same ones.
-/
import Mathlib.Data.List.Perm.Basic
import StubTemplate.Proofs.Keys
import StubTemplate.Value.Equality

namespace StubTemplate

namespace Binary64

theorem isClose_refl (x : Binary64) : x.isClose x = true := by
  rw [isClose, beq_self_eq_true, Bool.true_or, Bool.true_or]

theorem isClose_symm (x y : Binary64) (h : x.isClose y = true) : y.isClose x = true := by
  rw [← h, isClose, isClose, BEq.comm, Bool.and_comm x.isFinite, ← Int.natAbs_neg (x.signedUnits - _), Int.neg_sub,
    ← Int.natAbs_neg (x.position - _), Int.neg_sub]

end Binary64

/-! ## Lists related item by item -/

theorem forall₂_imp_of_mem {α β : Type} {R S : α → β → Prop} {as : List α} {bs : List β}
    (h : ∀ a ∈ as, ∀ b ∈ bs, R a b → S a b) (hR : List.Forall₂ R as bs) : List.Forall₂ S as bs := by
  induction hR with
  | nil => exact .nil
  | cons hab _ ih =>
    refine .cons (h _ List.mem_cons_self _ List.mem_cons_self hab) (ih fun a ha b hb => ?_)
    exact h a (List.mem_cons_of_mem _ ha) b (List.mem_cons_of_mem _ hb)

theorem exists_mem_of_forall₂ {α β : Type} {R : α → β → Prop} {a : α} {as : List α} {bs : List β}
    (h : List.Forall₂ R as bs) (ha : a ∈ as) : ∃ b ∈ bs, R a b := by
  induction h with
  | nil => cases ha
  | cons hab _ ih =>
    rcases List.mem_cons.1 ha with rfl | ha
    · exact ⟨_, List.mem_cons_self, hab⟩
    · obtain ⟨b, hb, hR⟩ := ih ha
      exact ⟨b, List.mem_cons_of_mem _ hb, hR⟩

/-! ## Entries that match in some order -/

namespace Entries

/-- the same keys in the same order, with related values -/
def Aligned (R : Value → Value → Prop) (as bs : Entries) : Prop :=
  List.Forall₂ (fun a b => a.1 = b.1 ∧ R a.2 b.2) as bs

/-- the same keys in some order, with related values -/
def Matches (R : Value → Value → Prop) (as bs : Entries) : Prop :=
  ∃ ms, Aligned R as ms ∧ ms.Perm bs

variable {R S : Value → Value → Prop} {as bs : Entries}

theorem aligned_iff : Aligned R as bs ↔ as.keys = bs.keys ∧ List.Forall₂ R as.values bs.values := by
  induction as generalizing bs with
  | nil => cases bs <;> simp [Aligned, keys, values]
  | cons a as ih =>
    cases bs with
    | nil => simp [Aligned, keys]
    | cons b bs =>
      have ih : List.Forall₂ (fun a b => a.1 = b.1 ∧ R a.2 b.2) as bs ↔ _ := ih
      simp only [Aligned, keys, values, List.forall₂_cons, List.map_cons, List.cons.injEq] at ih ⊢
      rw [ih]
      tauto

theorem get?_eq_some_iff {key : Key} {value : Value} {entries : Entries} (h : entries.keys.Nodup) :
    entries.get? key = some value ↔ (key, value) ∈ entries := by
  induction entries with
  | nil => simp [get?]
  | cons entry rest ih =>
    obtain ⟨k, v⟩ := entry
    obtain ⟨hk, hrest⟩ := List.nodup_cons.1 (show (k :: Entries.keys rest).Nodup from h)
    by_cases he : k = key
    · subst he
      have hnew : (k, value) ∉ rest := fun hmem => hk (List.mem_map_of_mem (f := Prod.fst) hmem)
      simp [get?, hnew, eq_comm]
    · simp [get?, he, Ne.symm he, ih hrest]

theorem Matches.imp (h : ∀ a ∈ as.values, ∀ b ∈ bs.values, R a b → S a b) (hR : Matches R as bs) :
    Matches S as bs := by
  obtain ⟨ms, hms, hperm⟩ := hR
  refine ⟨ms, forall₂_imp_of_mem ?_ hms, hperm⟩
  rintro a ha b hb ⟨hkey, hvalue⟩
  exact ⟨hkey, h a.2 (List.mem_map_of_mem ha) b.2 (List.mem_map_of_mem (hperm.subset hb)) hvalue⟩

theorem Matches.flip (h : Matches R as bs) : Matches (fun b a => R a b) bs as := by
  obtain ⟨ms, hms, hperm⟩ := h
  have hback : List.Forall₂ (fun b a : Key × Value => b.1 = a.1 ∧ R a.2 b.2) ms as :=
    (List.Forall₂.imp (fun _ _ ⟨hkey, hvalue⟩ => ⟨hkey.symm, hvalue⟩) hms).flip
  obtain ⟨ns, hns, hperm'⟩ := List.perm_comp_forall₂ hperm.symm hback
  exact ⟨ns, hns, hperm'⟩

theorem Matches.perm_keys (h : Matches R as bs) : as.keys.Perm bs.keys := by
  obtain ⟨ms, hms, hperm⟩ := h
  rw [(aligned_iff.1 hms).1]
  exact hperm.map Prod.fst

/-- where no key comes twice, a map of the same length that has every entry of the other has no other entries -/
theorem matches_iff (has : as.keys.Nodup) (hbs : bs.keys.Nodup) :
    Matches R as bs ↔ as.length = bs.length ∧ ∀ a ∈ as, ∃ value, bs.get? a.1 = some value ∧ R a.2 value := by
  constructor
  · rintro ⟨ms, hms, hperm⟩
    refine ⟨hms.length_eq.trans hperm.length_eq, ?_⟩
    intro a ha
    obtain ⟨b, hb, hkey, hvalue⟩ := exists_mem_of_forall₂ hms ha
    exact ⟨b.2, (get?_eq_some_iff hbs).2 (hkey ▸ hperm.subset hb), hvalue⟩
  · rintro ⟨hlength, hget⟩
    let ms : Entries := as.map fun a => (a.1, (bs.get? a.1).getD .null)
    have hkeys : ms.keys = as.keys := by
      simp only [ms, keys, List.map_map]
      rfl
    have hms : ms.Nodup := List.Nodup.of_map Prod.fst (show (Entries.keys ms).Nodup from hkeys ▸ has)
    have hsub : ms ⊆ bs := by
      intro m hm
      obtain ⟨a, ha, rfl⟩ := List.mem_map.1 hm
      obtain ⟨value, hvalue, -⟩ := hget a ha
      rw [hvalue]
      exact (get?_eq_some_iff hbs).1 hvalue
    have hfew : bs.length ≤ ms.length := by simp [ms, hlength]
    refine ⟨ms, ?_, (List.subperm_of_subset hms hsub).perm_of_length_le hfew⟩
    refine List.forall₂_map_right_iff.2 (List.forall₂_same.2 fun a ha => ⟨rfl, ?_⟩)
    obtain ⟨value, hvalue, hR⟩ := hget a ha
    rw [hvalue]
    exact hR

end Entries

namespace Value

/-- the same value, but for the order of the entries in maps, at any depth -/
inductive Same : Value → Value → Prop where
  | null : Same .null .null
  | bool (flag : Bool) : Same (.bool flag) (.bool flag)
  | int (number : Int64) : Same (.int number) (.int number)
  | float (number : Binary64) : Same (.float number) (.float number)
  | str (text : String) : Same (.str text) (.str text)
  | list {as bs : List Value} (h : List.Forall₂ Same as bs) : Same (.list as) (.list bs)
  | map {as ms bs : Entries} (hkeys : as.keys = ms.keys) (hvalues : List.Forall₂ Same as.values ms.values)
    (hperm : ms.Perm bs) : Same (.map as) (.map bs)

/-- the value, and all that stands in it at any depth, has the property -/
def Everywhere (P : Value → Prop) (v : Value) : Prop := ∀ part, Within part v → P part

/-- in no map in the value a key comes twice -/
def Keyed (v : Value) : Prop := v.Everywhere fun part => ∀ entries : Entries, part = .map entries → entries.keys.Nodup

/-- there is no float in the value -/
def FloatFree (v : Value) : Prop := v.Everywhere fun part => ∀ x, part ≠ .float x

/-- the kinds of values -/
inductive Kind where
  | null
  | bool
  | int
  | float
  | str
  | list
  | map
  deriving DecidableEq

def kind : Value → Kind
  | .null => .null
  | .bool _ => .bool
  | .int _ => .int
  | .float _ => .float
  | .str _ => .str
  | .list _ => .list
  | .map _ => .map

/-- what holds of a value if it holds of all values directly in it holds of every value -/
@[elab_as_elim]
theorem induction_on {P : Value → Prop} (v : Value) (leaf : ∀ v, v.elements? = none → P v)
    (list : ∀ items, (∀ v ∈ items, P v) → P (.list items))
    (map : ∀ entries : Entries, (∀ v ∈ entries.values, P v) → P (.map entries)) : P v :=
  @Value.rec P (fun items => ∀ v ∈ items, P v) (fun entries => ∀ v ∈ Entries.values entries, P v) (fun entry => P entry.2)
    (leaf _ rfl) (fun _ => leaf _ rfl) (fun _ => leaf _ rfl) (fun _ => leaf _ rfl) (fun _ => leaf _ rfl)
    list map (List.forall_mem_nil _) (fun _ _ hv hvs => List.forall_mem_cons.2 ⟨hv, hvs⟩)
    (List.forall_mem_nil _) (fun _ _ hv hvs => List.forall_mem_cons.2 ⟨hv, hvs⟩) (fun _ _ hv => hv) v

theorem everywhere_leaf_iff {P : Value → Prop} {v : Value} (h : v.elements? = none) : v.Everywhere P ↔ P v := by
  refine ⟨fun hv => hv v .self, fun hv part hwithin => ?_⟩
  cases hwithin with
  | self => exact hv
  | item => cases h
  | entry => cases h

theorem everywhere_list_iff {P : Value → Prop} {items : List Value} :
    Everywhere P (.list items) ↔ P (.list items) ∧ ∀ v ∈ items, v.Everywhere P := by
  refine ⟨fun h => ⟨h _ .self, fun v hv part hwithin => h part (.item hv hwithin)⟩, ?_⟩
  rintro ⟨hself, h⟩ part hwithin
  cases hwithin with
  | self => exact hself
  | item hv hin => exact h _ hv part hin

theorem everywhere_map_iff {P : Value → Prop} {entries : Entries} :
    Everywhere P (.map entries) ↔ P (.map entries) ∧ ∀ v ∈ entries.values, v.Everywhere P := by
  refine ⟨fun h => ⟨h _ .self, fun v hv part hwithin => h part (.entry hv hwithin)⟩, ?_⟩
  rintro ⟨hself, h⟩ part hwithin
  cases hwithin with
  | self => exact hself
  | entry hv hin => exact h _ hv part hin

theorem keyed_leaf {v : Value} (h : v.elements? = none) : v.Keyed := by
  rw [Keyed, everywhere_leaf_iff h]
  rintro entries rfl
  cases h

theorem keyed_list_iff {items : List Value} : Keyed (.list items) ↔ ∀ v ∈ items, v.Keyed := by
  simp [Keyed, everywhere_list_iff]

theorem keyed_map_iff {entries : Entries} :
    Keyed (.map entries) ↔ entries.keys.Nodup ∧ ∀ v ∈ entries.values, v.Keyed := by
  simp [Keyed, everywhere_map_iff]

/-! ## Equality, kind by kind -/

section

variable {close : Binary64 → Binary64 → Bool} {a b : Value}

theorem kind_eq_of_equalsBy (h : equalsBy close a b = true) : a.kind = b.kind := by
  cases a <;> cases b <;> first | rfl | simp [equalsBy] at h

theorem itemsEqual_iff {as bs : List Value} :
    itemsEqual close as bs = true ↔ List.Forall₂ (fun a b => equalsBy close a b = true) as bs := by
  induction as generalizing bs with
  | nil => cases bs <;> simp [itemsEqual]
  | cons a as ih => cases bs <;> simp [itemsEqual, ih]

theorem entriesWithin_iff {as bs : Entries} : entriesWithin close as bs = true ↔
    ∀ a ∈ as, ∃ value, bs.get? a.1 = some value ∧ equalsBy close a.2 value = true := by
  induction as with
  | nil => simp [entriesWithin]
  | cons a as ih =>
    obtain ⟨key, value⟩ := a
    rw [entriesWithin, Bool.and_eq_true, ih, List.forall_mem_cons]
    cases bs.get? key <;> simp

/-- equality on a value without parts: identity, but for floats -/
theorem equalsBy_leaf_iff (ha : a.elements? = none) : equalsBy close a b = true ↔
    (∃ x y, a = .float x ∧ b = .float y ∧ close x y = true) ∨ (∀ x, a ≠ .float x) ∧ a = b := by
  cases a with
  | list => cases ha
  | map => cases ha
  | _ => cases b <;> simp [equalsBy]

theorem equalsBy_list_iff {as : List Value} : equalsBy close (.list as) b = true ↔
    ∃ bs, b = .list bs ∧ List.Forall₂ (fun a b => equalsBy close a b = true) as bs := by
  cases b <;> simp [equalsBy, itemsEqual_iff]

theorem equalsBy_map_iff {as : Entries} (ha : Keyed (.map as)) (hb : b.Keyed) :
    equalsBy close (.map as) b = true ↔
      ∃ bs, b = .map bs ∧ Entries.Matches (fun a b => equalsBy close a b = true) as bs := by
  cases b with
  | map bs =>
    simp [equalsBy, entriesWithin_iff, Entries.matches_iff (keyed_map_iff.1 ha).1 (keyed_map_iff.1 hb).1]
  | _ => simp [equalsBy]

theorem same_leaf_iff (ha : a.elements? = none) : Same a b ↔ a = b := by
  constructor
  · rintro (_ | _ | _ | _ | _ | _ | _)
    iterate 5 rfl
    · cases ha
    · cases ha
  · rintro rfl
    cases a with
    | null => exact .null
    | bool => exact .bool _
    | int => exact .int _
    | float => exact .float _
    | str => exact .str _
    | list => cases ha
    | map => cases ha

theorem same_list_iff {as : List Value} : Same (.list as) b ↔ ∃ bs, b = .list bs ∧ List.Forall₂ Same as bs := by
  constructor
  · intro h
    cases h with
    | list h => exact ⟨_, rfl, h⟩
  · rintro ⟨bs, rfl, h⟩
    exact .list h

theorem same_map_iff {as : Entries} : Same (.map as) b ↔ ∃ bs, b = .map bs ∧ Entries.Matches Same as bs := by
  constructor
  · intro h
    cases h with
    | map hkeys hvalues hperm => exact ⟨_, rfl, _, Entries.aligned_iff.2 ⟨hkeys, hvalues⟩, hperm⟩
  · rintro ⟨bs, rfl, ms, hms, hperm⟩
    obtain ⟨hkeys, hvalues⟩ := Entries.aligned_iff.1 hms
    exact .map hkeys hvalues hperm

/-! ## Equality as a relation -/

theorem equalsBy_of_same (hrefl : ∀ x, close x x = true) (ha : a.Keyed) (hb : b.Keyed) (h : Same a b) :
    equalsBy close a b = true := by
  induction a using induction_on generalizing b with
  | leaf a hleaf =>
    obtain rfl := (same_leaf_iff hleaf).1 h
    rw [equalsBy_leaf_iff hleaf]
    by_cases hfloat : ∃ x, a = .float x
    · obtain ⟨x, rfl⟩ := hfloat
      exact .inl ⟨x, x, rfl, rfl, hrefl x⟩
    · exact .inr ⟨not_exists.1 hfloat, rfl⟩
  | list as ih =>
    obtain ⟨bs, rfl, hitems⟩ := same_list_iff.1 h
    rw [keyed_list_iff] at ha hb
    refine equalsBy_list_iff.2 ⟨bs, rfl, forall₂_imp_of_mem (fun a hamem b hbmem => ?_) hitems⟩
    exact ih a hamem (ha a hamem) (hb b hbmem)
  | map as ih =>
    obtain ⟨bs, rfl, hentries⟩ := same_map_iff.1 h
    refine (equalsBy_map_iff ha hb).2 ⟨bs, rfl, hentries.imp fun a hamem b hbmem => ?_⟩
    exact ih a hamem ((keyed_map_iff.1 ha).2 a hamem) ((keyed_map_iff.1 hb).2 b hbmem)

theorem same_refl (a : Value) : Same a a := by
  induction a using induction_on with
  | leaf a hleaf => exact (same_leaf_iff hleaf).2 rfl
  | list as ih => exact .list (List.forall₂_same.2 ih)
  | map as ih => exact .map rfl (List.forall₂_same.2 ih) (.refl _)

/-- equality is symmetric if the comparison of floats is -/
theorem equalsBy_symm (hsymm : ∀ x y, close x y = true → close y x = true) (ha : a.Keyed) (hb : b.Keyed)
    (h : equalsBy close a b = true) : equalsBy close b a = true := by
  induction a using induction_on generalizing b with
  | leaf a hleaf =>
    rcases (equalsBy_leaf_iff hleaf).1 h with ⟨x, y, rfl, rfl, hclose⟩ | ⟨-, rfl⟩
    · rw [equalsBy]
      exact hsymm x y hclose
    · exact h
  | list as ih =>
    obtain ⟨bs, rfl, hitems⟩ := equalsBy_list_iff.1 h
    rw [keyed_list_iff] at ha hb
    refine equalsBy_list_iff.2 ⟨as, rfl, List.Forall₂.flip ?_⟩
    refine forall₂_imp_of_mem (fun a hamem b hbmem => ?_) hitems
    exact ih a hamem (ha a hamem) (hb b hbmem)
  | map as ih =>
    obtain ⟨bs, rfl, hentries⟩ := (equalsBy_map_iff ha hb).1 h
    refine (equalsBy_map_iff hb ha).2 ⟨as, rfl, hentries.flip.imp fun b hbmem a hamem => ?_⟩
    exact ih a hamem ((keyed_map_iff.1 ha).2 a hamem) ((keyed_map_iff.1 hb).2 b hbmem)

/-- without floats on one side, equal values are the same -/
theorem same_of_equalsBy (ha : a.Keyed) (hb : b.Keyed) (hfree : a.FloatFree) (h : equalsBy close a b = true) :
    Same a b := by
  induction a using induction_on generalizing b with
  | leaf a hleaf =>
    rcases (equalsBy_leaf_iff hleaf).1 h with ⟨x, y, rfl, -⟩ | ⟨-, rfl⟩
    · exact absurd rfl (hfree _ .self x)
    · exact same_refl a
  | list as ih =>
    obtain ⟨bs, rfl, hitems⟩ := equalsBy_list_iff.1 h
    rw [keyed_list_iff] at ha hb
    refine .list (forall₂_imp_of_mem (fun a hamem b hbmem => ?_) hitems)
    exact ih a hamem (ha a hamem) (hb b hbmem) fun part hpart =>
      hfree part (.item hamem hpart)
  | map as ih =>
    obtain ⟨bs, rfl, hentries⟩ := (equalsBy_map_iff ha hb).1 h
    refine same_map_iff.2 ⟨bs, rfl, hentries.imp fun a hamem b hbmem => ?_⟩
    exact ih a hamem ((keyed_map_iff.1 ha).2 a hamem) ((keyed_map_iff.1 hb).2 b hbmem) fun part hpart =>
      hfree part (.entry hamem hpart)

/--
**Equality of values is sound.** Let the comparison of floats be reflexive and symmetric, and let no key come twice in a
map. Then equality is reflexive and symmetric; equal values are of the same kind, and equal maps have the same keys,
texts and integers told apart; the same values are equal, whatever the order of the entries in their maps; and if there
are no floats, only the same values are.
-/
theorem equalsBy_sound (hrefl : ∀ x, close x x = true) (hsymm : ∀ x y, close x y = true → close y x = true)
    (ha : a.Keyed) (hb : b.Keyed) :
    equalsBy close a a = true ∧
    equalsBy close a b = equalsBy close b a ∧
    (equalsBy close a b = true → a.kind = b.kind) ∧
    (∀ as bs : Entries, a = .map as → b = .map bs → equalsBy close a b = true → as.keys.Perm bs.keys) ∧
    (Same a b → equalsBy close a b = true) ∧
    (a.FloatFree → (equalsBy close a b = true ↔ Same a b)) := by
  have hsame := equalsBy_of_same hrefl ha hb
  refine ⟨equalsBy_of_same hrefl ha ha (same_refl a), ?_, kind_eq_of_equalsBy, ?_, hsame, ?_⟩
  · exact Bool.eq_iff_iff.2 ⟨equalsBy_symm hsymm ha hb, equalsBy_symm hsymm hb ha⟩
  · rintro as bs rfl rfl h
    obtain ⟨_, ⟨⟩, hentries⟩ := (equalsBy_map_iff ha hb).1 h
    exact hentries.perm_keys
  · intro hfree
    exact ⟨same_of_equalsBy ha hb hfree, hsame⟩

end

/-- entries with a text and an integer that are written alike as keys, and a map in a list -/
def inOrder : Entries :=
  [(.str "1", .list [.bool true, .map [(.int 1, .null), (.str "b", .int 2)]]), (.int 1, .str "x")]

/-- the same entries in another order, at both depths -/
def reordered : Entries :=
  [(.int 1, .str "x"), (.str "1", .list [.bool true, .map [(.str "b", .int 2), (.int 1, .null)]])]

theorem equalsBy_sound_reordered :
    Keyed (.map inOrder) ∧ Keyed (.map reordered) ∧ FloatFree (.map inOrder) ∧
      ((.map inOrder : Value) == .map reordered) = true ∧ Same (.map inOrder) (.map reordered) ∧
      inOrder.keys.Perm reordered.keys := by
  have hleft : Keyed (.map inOrder) := by
    simp (disch := decide) [inOrder, keyed_map_iff, keyed_list_iff, keyed_leaf, Entries.keys, Entries.values]
  have hright : Keyed (.map reordered) := by
    simp (disch := decide) [reordered, keyed_map_iff, keyed_list_iff, keyed_leaf, Entries.keys, Entries.values]
  have hfree : FloatFree (.map inOrder) := by
    simp (disch := decide) [inOrder, FloatFree, everywhere_map_iff, everywhere_list_iff, everywhere_leaf_iff,
      Entries.values]
  obtain ⟨-, -, -, hkeys, -, hsame⟩ :=
    equalsBy_sound Binary64.isClose_refl Binary64.isClose_symm hleft hright
  have hequal : equalsBy Binary64.isClose (.map inOrder) (.map reordered) = true := by decide
  exact ⟨hleft, hright, hfree, hequal, (hsame hfree).1 hequal, hkeys inOrder reordered rfl rfl hequal⟩

end Value

end StubTemplate
