/-!
Finite maps as lists of entries in strictly ascending order of their keys.  A table has one
representation, so two tables that answer every look-up alike are equal (`Table.ext_get?`).
-/

namespace ProcLang

/-- A finite map from keys to values: at most one entry for each key, in ascending order. -/
structure Table (κ α : Type) [Ord κ] where
  entries : List (κ × α)
  ascending : entries.Pairwise fun a b => compare a.1 b.1 = .lt

namespace Table

variable {κ α : Type} [Ord κ]

instance [DecidableEq κ] [DecidableEq α] : DecidableEq (Table κ α) := fun t u =>
  if h : t.entries = u.entries then .isTrue (by cases t; cases u; cases h; rfl)
  else .isFalse fun e => h (e ▸ rfl)

/-- The table without entries. -/
def empty : Table κ α := ⟨[], .nil⟩

instance : Inhabited (Table κ α) := ⟨empty⟩

/-- The value at a key in a list of entries. -/
def find? (k : κ) : List (κ × α) → Option α
  | [] => none
  | (k', v) :: rest => if compare k k' = .eq then some v else find? k rest

/-- The value at a key. -/
def get? (t : Table κ α) (k : κ) : Option α := find? k t.entries

/-- The entries with a key set to a value. -/
def put (k : κ) (v : α) : List (κ × α) → List (κ × α)
  | [] => [(k, v)]
  | (k', v') :: rest =>
    match compare k k' with
    | .lt => (k, v) :: (k', v') :: rest
    | .eq => (k, v) :: rest
    | .gt => (k', v') :: put k v rest

theorem mem_put {k : κ} {v : α} {e : κ × α} :
    ∀ {es : List (κ × α)}, e ∈ put k v es → e = (k, v) ∨ e ∈ es
  | [], h => by simpa [put] using h
  | (k', v') :: rest, h => by
    rw [put] at h
    split at h
    · simpa using h
    · rcases List.mem_cons.mp h with h | h <;> simp [h]
    · rcases List.mem_cons.mp h with h | h
      · simp [h]
      · rcases mem_put h with h | h <;> simp [h]

theorem put_ascending [Std.TransOrd κ] [Std.LawfulEqOrd κ] (k : κ) (v : α) {es : List (κ × α)}
    (h : es.Pairwise fun a b => compare a.1 b.1 = .lt) :
    (put k v es).Pairwise fun a b => compare a.1 b.1 = .lt := by
  induction es with
  | nil => simp [put]
  | cons e rest ih =>
    obtain ⟨k', v'⟩ := e
    have ⟨hhead, htail⟩ := List.pairwise_cons.mp h
    rw [put]
    split
    · rename_i hlt
      refine List.pairwise_cons.mpr ⟨fun e he => ?_, h⟩
      rcases List.mem_cons.mp he with rfl | he
      · exact hlt
      · exact Std.TransCmp.lt_trans hlt (hhead e he)
    · rename_i heq
      cases Std.LawfulEqCmp.eq_of_compare heq
      exact List.pairwise_cons.mpr ⟨hhead, htail⟩
    · rename_i hgt
      refine List.pairwise_cons.mpr ⟨fun e he => ?_, ih htail⟩
      rcases mem_put he with rfl | he
      · exact Std.OrientedCmp.lt_of_gt hgt
      · exact hhead e he

/-- The table with a key set to a value, in place of the value it had. -/
def insert [Std.TransOrd κ] [Std.LawfulEqOrd κ] (t : Table κ α) (k : κ) (v : α) : Table κ α :=
  ⟨put k v t.entries, put_ascending k v t.ascending⟩

/-- The table without a key. -/
def erase (t : Table κ α) (k : κ) : Table κ α :=
  ⟨t.entries.filter fun e => compare k e.1 != .eq, t.ascending.filter _⟩

/-- The table has a value at the key. -/
def contains (t : Table κ α) (k : κ) : Bool := (t.get? k).isSome

/-- The values, in ascending order of their keys. -/
def values (t : Table κ α) : List α := t.entries.map (·.2)

@[simp] theorem get?_empty (k : κ) : (empty : Table κ α).get? k = none := rfl

theorem find?_eq_none_of_lt {k : κ} {es : List (κ × α)}
    (h : ∀ e ∈ es, compare k e.1 = .lt) : find? k es = none := by
  induction es with
  | nil => rfl
  | cons e rest ih =>
    rw [find?, if_neg (by simp [h e (by simp)]), ih fun e he => h e (by simp [he])]

section Equality

variable [Std.LawfulEqOrd κ]

theorem find?_put_self (k : κ) (v : α) (es : List (κ × α)) : find? k (put k v es) = some v := by
  induction es with
  | nil => simp [put, find?]
  | cons e rest ih =>
    rw [put]
    split
    · simp [find?]
    · simp [find?]
    · rename_i hgt
      simp [find?, hgt, ih]

theorem find?_put_of_ne {k k' : κ} (v : α) (es : List (κ × α)) (h : k' ≠ k) :
    find? k' (put k v es) = find? k' es := by
  have hne : compare k' k ≠ .eq := fun e => h (Std.LawfulEqCmp.eq_of_compare e)
  induction es with
  | nil => simp [put, find?, hne]
  | cons e rest ih =>
    rw [put]
    split
    · simp [find?, hne]
    · rename_i heq
      cases Std.LawfulEqCmp.eq_of_compare heq
      simp [find?, hne]
    · simp [find?, ih]

theorem find?_filter_self (k : κ) (es : List (κ × α)) :
    find? k (es.filter fun e => compare k e.1 != .eq) = none := by
  induction es with
  | nil => rfl
  | cons e rest ih =>
    by_cases hk : compare k e.1 = .eq
    · rw [List.filter_cons_of_neg (by simp [hk]), ih]
    · rw [List.filter_cons_of_pos (by simpa using hk), find?, if_neg hk, ih]

theorem find?_filter_of_ne {k k' : κ} (es : List (κ × α)) (h : k' ≠ k) :
    find? k' (es.filter fun e => compare k e.1 != .eq) = find? k' es := by
  induction es with
  | nil => rfl
  | cons e rest ih =>
    by_cases hk : compare k e.1 = .eq
    · have hk' : compare k' e.1 ≠ .eq := fun h' =>
        h ((Std.LawfulEqCmp.eq_of_compare h').trans (Std.LawfulEqCmp.eq_of_compare hk).symm)
      rw [List.filter_cons_of_neg (by simp [hk]), ih, find?, if_neg hk']
    · rw [List.filter_cons_of_pos (by simpa using hk), find?, find?, ih]

@[simp] theorem get?_erase_self (t : Table κ α) (k : κ) : (t.erase k).get? k = none :=
  find?_filter_self k t.entries

theorem get?_erase_of_ne (t : Table κ α) {k k' : κ} (h : k' ≠ k) :
    (t.erase k).get? k' = t.get? k' :=
  find?_filter_of_ne t.entries h

theorem mem_entries_iff (t : Table κ α) (k : κ) (v : α) :
    (k, v) ∈ t.entries ↔ t.get? k = some v := by
  obtain ⟨es, h⟩ := t
  simp only [get?]
  induction es with
  | nil => simp [find?]
  | cons e rest ih =>
    have ⟨hhead, htail⟩ := List.pairwise_cons.mp h
    obtain ⟨k', v'⟩ := e
    by_cases hk : compare k k' = .eq
    · have := Std.LawfulEqCmp.eq_of_compare hk
      subst this
      rw [find?, if_pos hk]
      constructor
      · rintro (_ | ⟨_, hmem⟩)
        · rfl
        · simpa using hhead _ hmem
      · rintro ⟨⟩
        exact List.mem_cons_self
    · rw [find?, if_neg hk, ← ih htail]
      constructor
      · rintro (_ | ⟨_, hmem⟩)
        · exact absurd Std.ReflCmp.compare_self hk
        · exact hmem
      · exact List.mem_cons_of_mem _

end Equality

section Order

variable [Std.TransOrd κ] [Std.LawfulEqOrd κ]

@[simp] theorem get?_insert_self (t : Table κ α) (k : κ) (v : α) : (t.insert k v).get? k = some v :=
  find?_put_self k v t.entries

theorem get?_insert_of_ne (t : Table κ α) {k k' : κ} (v : α) (h : k' ≠ k) :
    (t.insert k v).get? k' = t.get? k' :=
  find?_put_of_ne v t.entries h

omit [Std.LawfulEqOrd κ] in
/-- A key below the first of ascending entries is not among them. -/
theorem find?_eq_none_of_lt_head {j k : κ} {v : α} {es : List (κ × α)}
    (h : ((k, v) :: es).Pairwise fun a b => compare a.1 b.1 = .lt) (hj : compare j k = .lt) :
    find? j ((k, v) :: es) = none := by
  refine find?_eq_none_of_lt fun e he => ?_
  rcases List.mem_cons.mp he with rfl | he
  · exact hj
  · exact Std.TransCmp.lt_trans hj ((List.pairwise_cons.mp h).1 e he)

theorem entries_eq_of_find? :
    ∀ {es fs : List (κ × α)}, (es.Pairwise fun a b => compare a.1 b.1 = .lt) →
      (fs.Pairwise fun a b => compare a.1 b.1 = .lt) →
      (∀ k, find? k es = find? k fs) → es = fs
  | [], [], _, _, _ => rfl
  | [], (k, v) :: _, _, _, h => by simpa [find?] using h k
  | (k, v) :: _, [], _, _, h => by simpa [find?] using h k
  | (k, v) :: es, (k', v') :: fs, he, hf, h => by
    have hkk : k = k' := by
      rcases hc : compare k k' with _ | _ | _
      · have := h k
        rw [find?_eq_none_of_lt_head hf hc] at this
        simp [find?] at this
      · exact Std.LawfulEqCmp.eq_of_compare hc
      · have := h k'
        rw [find?_eq_none_of_lt_head he (Std.OrientedCmp.lt_of_gt hc)] at this
        simp [find?] at this
    subst hkk
    have hv : v = v' := by simpa [find?] using h k
    subst hv
    have ⟨hehead, hetail⟩ := List.pairwise_cons.mp he
    have ⟨hfhead, hftail⟩ := List.pairwise_cons.mp hf
    refine congrArg _ (entries_eq_of_find? hetail hftail fun j => ?_)
    by_cases hj : compare j k = .eq
    · have := Std.LawfulEqCmp.eq_of_compare hj
      subst this
      rw [find?_eq_none_of_lt hehead, find?_eq_none_of_lt hfhead]
    · simpa [find?, hj] using h j

/-- Tables that answer every look-up alike are equal. -/
theorem ext_get? {t u : Table κ α} (h : ∀ k, t.get? k = u.get? k) : t = u := by
  obtain ⟨es, he⟩ := t
  obtain ⟨fs, hf⟩ := u
  cases entries_eq_of_find? he hf h
  rfl

end Order

end Table

end ProcLang
