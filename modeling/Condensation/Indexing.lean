/-
  Indexing — vectors read and written at indices that are in range by type.

  A vector of length `n` is read at an index of `Fin n` by `Vector.get` and written by
  `Vector.put`.  Two laws say all about the pair: what was put is what one gets, and all other
  entries stay.  Vectors with the same entries are equal (`Vector.ext_get`).
-/
namespace Vector

variable {α : Type} {n : Nat}

/-- The vector with entry `i` replaced. -/
def put (v : Vector α n) (i : Fin n) (a : α) : Vector α n :=
  v.set i.val a i.isLt

/-- What was put is what one gets, -/
@[simp] theorem get_put_self (v : Vector α n) (i : Fin n) (a : α) : (v.put i a).get i = a := by
  show (v.set i.val a i.isLt)[i.val] = a
  simp

/-- and all other entries stay. -/
theorem get_put_of_ne (v : Vector α n) {i j : Fin n} (a : α) (h : i ≠ j) :
    (v.put i a).get j = v.get j := by
  show (v.set i.val a i.isLt)[j.val] = v[j.val]
  exact Vector.getElem_set_ne _ _ fun e => h (Fin.ext e)

@[simp] theorem get_ofFn_eq (f : Fin n → α) (i : Fin n) : (Vector.ofFn f).get i = f i := by
  show (Vector.ofFn f)[i.val] = f i
  simp

theorem ofFn_get (f : Fin n → α) : (Vector.ofFn f).get = f :=
  funext fun i => get_ofFn_eq f i

@[simp] theorem get_replicate_eq (a : α) (i : Fin n) : (Vector.replicate n a).get i = a := by
  show (Vector.replicate n a)[i.val] = a
  simp

/-- An entry of a vector, read from the array behind it. -/
theorem get_mk_eq_getD (a : Array α) (h : a.size = n) (i : Fin n) (d : α) :
    (Vector.mk a h).get i = a.getD i.val d := by
  have hi : i.val < a.size := h ▸ i.isLt
  simp [Vector.get, Array.getD, hi]

/-- The same lookup, where an index may be out of range. -/
theorem getElem?_toArray_get (v : Vector α n) (i : Fin n) :
    v.toArray[i.val]? = some (v.get i) := by
  rw [Array.getElem?_eq_getElem (by simp)]
  rfl

theorem get_mem_toList (v : Vector α n) (i : Fin n) : v.get i ∈ v.toList := by
  show v[i.val] ∈ v.toList
  simp

/-- One entry more: those before it stay, -/
theorem get_push_of_lt (v : Vector α n) (a : α) {i : Fin (n + 1)} (h : i.val < n) :
    (v.push a).get i = v.get ⟨i.val, h⟩ :=
  Vector.getElem_push_lt h

/-- and it is the last one. -/
theorem get_push_of_eq (v : Vector α n) (a : α) {i : Fin (n + 1)} (h : i.val = n) :
    (v.push a).get i = a := by
  have : i = Fin.last n := Fin.ext h
  subst this
  exact Vector.getElem_push_eq

/-- **Extensionality**: vectors with the same entries are equal. -/
theorem ext_get {v w : Vector α n} (h : ∀ i : Fin n, v.get i = w.get i) : v = w := by
  ext i hi
  exact h ⟨i, hi⟩

end Vector
