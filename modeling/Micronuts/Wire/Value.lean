import Mathlib.Data.List.Induction

/-!
# JSON values (`serde_json`)

An object keeps its members in the order of their names. Reading a member back after it has been put in does not depend on
that order (`lookup_insert`), which is all that the translators ask of an object but one: the keys of a keyset are read off as
they come.
-/

namespace Micronuts

inductive Number
  | posInt (n : UInt64)
  | negInt (n : Int64)
  | float (bits : UInt64)
deriving DecidableEq

/-- `serde_json::Value`. -/
inductive Value
  | null
  | bool (b : Bool)
  | number (n : Number)
  | string (s : String)
  | array (entries : List Value)
  | object (members : List (String × Value))

namespace Value

def asU64 : Value → Option UInt64
  | number (.posInt n) => some n
  | _ => none

def asStr : Value → Option String
  | string s => some s
  | _ => none

def asBool : Value → Option Bool
  | bool b => some b
  | _ => none

def asArray : Value → Option (List Value)
  | array entries => some entries
  | _ => none

def asObject : Value → Option (List (String × Value))
  | object members => some members
  | _ => none

@[simp] theorem asU64_posInt (n : UInt64) : asU64 (number (.posInt n)) = some n := rfl

@[simp] theorem asU64_null : asU64 null = none := rfl

@[simp] theorem asStr_string (s : String) : asStr (string s) = some s := rfl

@[simp] theorem asStr_null : asStr null = none := rfl

@[simp] theorem asBool_bool (b : Bool) : asBool (bool b) = some b := rfl

@[simp] theorem asArray_array (entries : List Value) : asArray (array entries) = some entries := rfl

@[simp] theorem asObject_object (members : List (String × Value)) : asObject (object members) = some members := rfl

end Value

/-! ### Members -/

namespace Members
variable {α : Type}

def lookup (name : String) : List (String × α) → Option α
  | [] => none
  | (k, v) :: members => if k = name then some v else lookup name members

/-- `Map::insert`: in its place by name, instead of an old member. -/
def insert (name : String) (value : α) : List (String × α) → List (String × α)
  | [] => [(name, value)]
  | (k, v) :: members =>
    if name < k then (name, value) :: (k, v) :: members
    else if name = k then (name, value) :: members
    else (k, v) :: insert name value members

def ofList (members : List (String × α)) : List (String × α) :=
  members.foldl (fun acc kv => insert kv.1 kv.2 acc) []

theorem lookup_insert (name name' : String) (value : α) (members : List (String × α)) :
    lookup name' (insert name value members) = if name = name' then some value else lookup name' members := by
  induction members with
  | nil => rfl
  | cons kv members ih =>
    obtain ⟨k, v⟩ := kv
    rw [insert]
    by_cases hlt : name < k
    · rw [if_pos hlt]
      rfl
    · rw [if_neg hlt]
      by_cases heq : name = k
      · subst heq
        rw [if_pos rfl]
        by_cases h : name = name'
        · simp [lookup, h]
        · simp [lookup, h]
      · rw [if_neg heq, lookup, ih, lookup]
        by_cases h : k = name'
        · subst h
          rw [if_pos rfl, if_neg heq, if_pos rfl]
        · rw [if_neg h, if_neg h]

@[simp] theorem lookup_nil (name : String) : lookup name ([] : List (String × α)) = none := rfl

@[simp] theorem lookup_cons (name k : String) (v : α) (members : List (String × α)) :
    lookup name ((k, v) :: members) = if k = name then some v else lookup name members := rfl

/-- The last member of a name counts. -/
theorem lookup_ofList (name : String) (members : List (String × α)) :
    lookup name (ofList members) = lookup name members.reverse := by
  rw [ofList]
  induction members using List.reverseRecOn with
  | nil => rfl
  | append_singleton members kv ih =>
    rw [List.foldl_append, List.reverse_append]
    exact (lookup_insert kv.1 name kv.2 _).trans (by rw [ih]; rfl)

/-- A new member only finds its place. -/
theorem insert_perm {name : String} (value : α) {members : List (String × α)} (h : name ∉ members.map Prod.fst) :
    (insert name value members).Perm ((name, value) :: members) := by
  induction members with
  | nil => exact .refl _
  | cons kv members ih =>
    obtain ⟨k, v⟩ := kv
    simp only [List.map_cons, List.mem_cons, not_or] at h
    rw [insert]
    by_cases hlt : name < k
    · rw [if_pos hlt]
    · rw [if_neg hlt, if_neg h.1]
      exact ((ih h.2).cons (k, v)).trans (.swap _ _ _)

theorem foldl_insert_perm {members acc : List (String × α)} (h : ((members ++ acc).map Prod.fst).Nodup) :
    (members.foldl (fun acc kv => insert kv.1 kv.2 acc) acc).Perm (members ++ acc) := by
  induction members generalizing acc with
  | nil => exact .refl _
  | cons kv members ih =>
    have hnew : kv.1 ∉ acc.map Prod.fst := by
      intro hmem
      simp only [List.cons_append, List.map_cons, List.nodup_cons, List.map_append, List.mem_append, not_or] at h
      exact h.1.2 hmem
    have hmoved : (members ++ insert kv.1 kv.2 acc).Perm (kv :: members ++ acc) :=
      ((insert_perm kv.2 hnew).append_left members).trans List.perm_middle
    exact (ih ((hmoved.map Prod.fst).nodup_iff.2 h)).trans hmoved

/-- Members with different names are all there. -/
theorem ofList_perm {members : List (String × α)} (h : (members.map Prod.fst).Nodup) : (ofList members).Perm members := by
  have hperm := @foldl_insert_perm _ members [] (by rwa [List.append_nil])
  rwa [List.append_nil] at hperm

end Members

namespace Value

def get (field : String) (v : Value) : Option Value := v.asObject.bind (Members.lookup field)

/-- `json!({ … })`. -/
def ofFields (fields : List (String × Value)) : Value := object (Members.ofList fields)

/-- `value[name] = member`. -/
def set (v : Value) (name : String) (member : Value) : Value :=
  match v with
  | object members => object (Members.insert name member members)
  | v => v

@[simp] theorem asObject_ofFields (fields : List (String × Value)) :
    asObject (ofFields fields) = some (Members.ofList fields) :=
  rfl

@[simp] theorem get_ofFields (field : String) (fields : List (String × Value)) :
    get field (ofFields fields) = Members.lookup field fields.reverse := Members.lookup_ofList field fields

@[simp] theorem get_set_ofFields (field name : String) (member : Value) (fields : List (String × Value)) :
    get field ((ofFields fields).set name member) =
      if name = field then some member else get field (ofFields fields) :=
  Members.lookup_insert name field member (Members.ofList fields)

end Value

end Micronuts
