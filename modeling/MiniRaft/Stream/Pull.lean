import MiniRaft.Stream.Incremental

/-!
# Reading one item at a time

A reader that wants one item takes chunks off the stream until its buffer holds one.  What it has
read beyond the item stays in the buffer, and whoever reads next has to start from there.

* `Incremental.pull` : wait for an item.
* `Incremental.drain_of_pull` : an item, and then the items of what is left, are the items of all.
* `Incremental.drain_of_truncated` : what has arrived of a stream of codes is drained to the items
  that have arrived completely.
-/

namespace MiniRaft

namespace Incremental

variable {β ρ α : Type*} (d : Incremental β ρ)

/-- Wait for an item: the item, the buffer behind it and the chunks that have not been read. -/
def pull (buf : List β) : List (List β) → Option (ρ × List β × List (List β))
  | [] => (d.step buf).map fun p => (p.1, p.2, [])
  | chunk :: chunks =>
    match d.step buf with
    | some (r, rest) => some (r, rest, chunk :: chunks)
    | none => pull (buf ++ chunk) chunks

variable {d}

theorem drain_of_pull {buf rest : List β} {chunks later : List (List β)} {r : ρ}
    (h : d.pull buf chunks = some (r, rest, later)) : d.drain (buf ++ chunks.flatten) =
      (r :: (d.drain (rest ++ later.flatten)).1, (d.drain (rest ++ later.flatten)).2) := by
  induction chunks generalizing buf with
  | nil =>
    obtain ⟨⟨r', rest'⟩, hstep, heq⟩ := Option.map_eq_some_iff.1 h
    cases heq
    simpa using drain_of_some hstep
  | cons chunk chunks ih =>
    rw [pull] at h
    split at h
    · rename_i r' rest' hstep
      cases h
      exact drain_of_some (d.extends_step _ hstep)
    · rw [List.flatten_cons, ← List.append_assoc]
      exact ih h

theorem drain_of_pull_eq_none {buf : List β} {chunks : List (List β)}
    (h : d.pull buf chunks = none) :
    d.drain (buf ++ chunks.flatten) = ([], buf ++ chunks.flatten) := by
  induction chunks generalizing buf with
  | nil =>
    rw [pull, Option.map_eq_none_iff] at h
    rw [List.flatten_nil, List.append_nil]
    exact drain_of_none h
  | cons chunk chunks ih =>
    rw [pull] at h
    split at h
    · cases h
    · rw [List.flatten_cons, ← List.append_assoc]
      exact ih h

theorem isPrefix_of_step {code : List β} {r : ρ} {buf tail : List β}
    (h : d.step (code ++ tail) = some (r, tail)) (hbuf : buf <+: code ++ tail)
    (hstep : (d.step buf).isSome = true) : code <+: buf := by
  obtain ⟨⟨r', rest⟩, hstep⟩ := Option.isSome_iff_exists.1 hstep
  obtain ⟨more, hmore⟩ := hbuf
  have hwhole := d.extends_step more hstep
  rw [hmore, h, Option.some.injEq, Prod.mk.injEq] at hwhole
  obtain ⟨-, rfl⟩ := hwhole
  rw [← List.append_assoc, List.append_left_inj] at hmore
  exact ⟨rest, hmore.symm⟩

/-- **Partial streams**: of a stream of codes, cut anywhere, the items are found whose codes have
arrived completely, and no more. -/
theorem drain_of_truncated {code : α → List β} {item : α → ρ} {xs : List α} {buf : List β}
    (h : ∀ x ∈ xs, ∀ more, d.step (code x ++ more) = some (item x, more))
    (hbuf : buf <+: xs.flatMap code) :
    ∃ n ≤ xs.length, (d.drain buf).1 = (xs.take n).map item ∧ (xs.take n).flatMap code <+: buf ∧
      ∀ m ≤ xs.length, (xs.take m).flatMap code <+: buf → m ≤ n := by
  induction xs generalizing buf with
  | nil =>
    obtain rfl := List.prefix_nil.1 hbuf
    exact ⟨0, Nat.le_refl _, by rw [drain_nil]; rfl, List.nil_prefix, fun _ hm _ => hm⟩
  | cons x xs ih =>
    have hx := h x List.mem_cons_self
    rw [List.flatMap_cons] at hbuf
    by_cases hcode : code x <+: buf
    · obtain ⟨buf, rfl⟩ := hcode
      obtain ⟨n, hn, hdrain, harrived, hlast⟩ := ih (fun y hy => h y (List.mem_cons_of_mem x hy))
        ((List.prefix_append_right_inj _).1 hbuf)
      refine ⟨n + 1, Nat.succ_le_succ hn, ?_, ?_, fun m hm hcodes => ?_⟩
      · rw [drain_of_some (hx buf), hdrain, List.take_succ_cons, List.map_cons]
      · rw [List.take_succ_cons, List.flatMap_cons]
        exact (List.prefix_append_right_inj _).2 harrived
      · cases m with
        | zero => exact Nat.zero_le _
        | succ m =>
          rw [List.take_succ_cons, List.flatMap_cons, List.prefix_append_right_inj] at hcodes
          exact Nat.succ_le_succ (hlast m (Nat.le_of_succ_le_succ hm) hcodes)
    · -- the code of the first item has not arrived completely
      have hnone : d.step buf = none := by
        rw [← Option.not_isSome_iff_eq_none]
        exact fun hstep => hcode (isPrefix_of_step (hx _) hbuf hstep)
      refine ⟨0, Nat.zero_le _, by rw [drain_of_none hnone]; rfl, List.nil_prefix,
        fun m _ hcodes => ?_⟩
      cases m with
      | zero => exact Nat.le_refl _
      | succ m =>
        rw [List.take_succ_cons, List.flatMap_cons] at hcodes
        exact absurd ((List.prefix_append _ _).trans hcodes) hcode

end Incremental

end MiniRaft
