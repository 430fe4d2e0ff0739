import InterBase.StatusVectorSend
import Mathlib.Algebra.Order.BigOperators.Group.List

namespace InterBase.Response

open Memory BigEndian

/-- The argument as one that comes over whole. -/
def Argument.whole : Argument → Item
  | string characters => .string 2 characters
  | cstring characters => .string 2 characters
  | number n => .number 4 n

def Cluster.wholes (protocol : Nat) (c : Cluster) : List Item :=
  .number c.tag (clientCode protocol c.code) :: c.arguments.map Argument.whole

section

variable {protocol : Nat} {interprete : List Status → Option (List UInt8)} {v : StatusVector}
  {clusters : List Cluster}

theorem received_eq (protocol : Nat) (v : StatusVector) : v.received protocol =
    ((said protocol v.clusters).flatMap (Cluster.wholes protocol)).flatMap Item.entries ++
      [.number 0] := by
  unfold StatusVector.received
  rw [List.flatMap_assoc]
  congr 2
  funext c
  have each : ∀ arguments : List Argument, arguments.flatMap Argument.received =
      (arguments.map Argument.whole).flatMap Item.entries := by
    intro arguments
    rw [List.flatMap_map]
    congr 1
    funext a
    cases a <;> rfl
  rw [each]
  rfl

theorem entries_injective {items items' : List Item}
    (h : items.flatMap Item.entries = items'.flatMap Item.entries) : items = items' := by
  induction items generalizing items' with
  | nil =>
    cases items' with
    | nil => rfl
    | cons item' items' => cases item' <;> simp [Item.entries] at h
  | cons item items ih =>
    cases items' with
    | nil => cases item <;> simp [Item.entries] at h
    | cons item' items' =>
      rw [List.flatMap_cons, List.flatMap_cons] at h
      cases item <;> cases item' <;> simp only [Item.entries, List.cons_append, List.nil_append,
        List.cons.injEq, Status.number.injEq, Status.text.injEq, reduceCtorEq, false_and,
        and_false] at h
      all_goals
        obtain ⟨rfl, rfl, rest⟩ := h
        rw [ih rest]

theorem itemsOf_eq_iff : itemsOf protocol clusters = clusters.flatMap (Cluster.wholes protocol) ↔
    ∀ c ∈ clusters, ∀ a ∈ c.arguments, a.item = a.whole := by
  induction clusters with
  | nil => simp [itemsOf]
  | cons c clusters ih =>
    have lengths : (c.items protocol).length = (c.wholes protocol).length := by
      simp [Cluster.items, Cluster.wholes]
    have first : c.items protocol = c.wholes protocol ↔ ∀ a ∈ c.arguments, a.item = a.whole := by
      unfold Cluster.items Cluster.wholes
      rw [List.cons.injEq, and_iff_right rfl, List.map_inj_left]
    unfold itemsOf at ih ⊢
    rw [List.flatMap_cons, List.flatMap_cons, List.forall_mem_cons, ← first, ← ih]
    constructor
    · exact fun h => List.append_inj h lengths
    · rintro ⟨head, tail⟩
      rw [head, tail]

theorem cut_eq_iff (xs : List UInt8) : cut xs = xs ↔ 0 ∉ xs ∧ xs.length < 65536 := by
  constructor
  · intro h
    constructor
    · rw [← h]
      exact not_mem_takeWhile _
    · have le : (cut xs).length ≤ xs.length % 65536 :=
        (List.takeWhile_prefix _).length_le.trans (List.length_take_le _ _)
      rw [h] at le
      have lt := Nat.mod_lt xs.length (show 0 < 65536 by omega)
      omega
  · rintro ⟨clean, small⟩
    unfold cut
    rw [Nat.mod_eq_of_lt small, List.take_length, List.takeWhile_eq_self_iff]
    intro x mem
    simpa using fun zero : x = 0 => clean (zero ▸ mem)

theorem takeWhile_clean {xs : List UInt8} (clean : 0 ∉ xs) : xs.takeWhile (· ≠ 0) = xs := by
  rw [List.takeWhile_eq_self_iff]
  intro x mem
  simpa using fun zero : x = 0 => clean (zero ▸ mem)

theorem said_subset (protocol : Nat) (clusters : List Cluster) :
    ∀ c ∈ said protocol clusters, c ∈ clusters := by
  intro c mem
  unfold said at mem
  split at mem
  · exact (List.takeWhile_prefix _).subset mem
  · exact mem

theorem itemsOf_tagged : ∀ item ∈ itemsOf protocol clusters, item.Tagged := by
  intro item mem
  obtain ⟨c, -, mem⟩ := List.mem_flatMap.mp mem
  rcases List.mem_cons.mp mem with rfl | mem
  · show c.tag.toNat % 65536 ≠ 0 ∧ c.tag.toNat % 65536 ≠ 5 ∧ c.tag.toNat % 65536 ≠ 2
    unfold Cluster.tag
    split <;> decide
  · obtain ⟨a, -, rfl⟩ := List.mem_map.mp mem
    cases a with
    | string xs => exact .inr rfl
    | cstring xs => exact .inr rfl
    | number n => exact ⟨by decide, by decide, by decide⟩

theorem slots_le (items : List Item) : slots items ≤ items.length := by
  induction items with
  | nil => exact Nat.le_refl 0
  | cons item items ih =>
    rw [List.length_cons]
    cases item with
    | number tag n => exact Nat.le_succ_of_le ih
    | string tag xs => exact Nat.succ_le_succ ih

theorem length_entries (protocol : Nat) (clusters : List Cluster) :
    2 * (itemsOf protocol clusters).length ≤ (clusters.flatMap Cluster.entries).length ∧
      clusters.length ≤ (clusters.flatMap Cluster.entries).length := by
  have arguments_le : ∀ arguments : List Argument,
      2 * arguments.length ≤ (arguments.flatMap Argument.entries).length := by
    intro arguments
    induction arguments with
    | nil => exact Nat.le_refl 0
    | cons a arguments ih =>
      have two : 2 ≤ a.entries.length := by cases a <;> simp [Argument.entries]
      rw [List.flatMap_cons, List.length_append, List.length_cons]
      omega
  induction clusters with
  | nil => exact ⟨Nat.le_refl 0, Nat.le_refl 0⟩
  | cons c clusters ih =>
    have le := arguments_le c.arguments
    have items : (c.items protocol).length = c.arguments.length + 1 := by simp [Cluster.items]
    have entries : c.entries.length = (c.arguments.flatMap Argument.entries).length + 2 := by
      simp [Cluster.entries]
    unfold itemsOf at ih ⊢
    simp only [List.flatMap_cons, List.length_append, List.length_cons]
    omega

theorem said_items_le (protocol : Nat) (clusters : List Cluster) :
    (itemsOf protocol (said protocol clusters)).length ≤ (itemsOf protocol clusters).length := by
  induction clusters with
  | nil => exact Nat.le_of_eq (by simp [said])
  | cons c clusters ih =>
    rw [said_cons]
    split
    · exact Nat.zero_le _
    · unfold itemsOf at ih ⊢
      rw [List.flatMap_cons, List.flatMap_cons, List.length_append, List.length_append]
      omega

/-- What `send_response` makes of a vector. -/
theorem sendResponse_spec (protocol : Nat) (interprete : List Status → Option (List UInt8))
    (stack : Nat → UInt8) (v : StatusVector) :
    if usedAll (said protocol v.clusters) ≤ 1024 then
      ∃ s : Sending, sendResponse protocol interprete stack v.entries =
          some { s with newVector := s.newVector ++ [.number 0] } ∧
        s.Says (itemsOf protocol (said protocol v.clusters))
    else sendResponse protocol interprete stack v.entries = none := by
  have short := v.short
  obtain ⟨items, count⟩ := length_entries protocol v.clusters
  rw [List.length_append, List.length_singleton] at short
  have start : Sending.Says ⟨[], stack, 0⟩ [] := ⟨.nil, Nat.zero_le _⟩
  have enough : v.clusters.length < v.entries.length := by
    unfold StatusVector.entries
    rw [List.length_append, List.length_singleton]
    omega
  have vector : 2 * (([] : List Item).length + (itemsOf protocol v.clusters).length) ≤ 20 := by
    rw [List.length_nil]
    omega
  have fewer := said_items_le protocol v.clusters
  have sent : if usedAll (said protocol v.clusters) ≤ 1024 then
      ∃ s, sendLoop protocol interprete v.entries.length v.entries ⟨[], stack, 0⟩ = some s ∧
        s.Says (itemsOf protocol (said protocol v.clusters))
      else sendLoop protocol interprete v.entries.length v.entries ⟨[], stack, 0⟩ = none := by
    rw [← Nat.zero_add (usedAll (said protocol v.clusters))]
    exact sendLoop_spec start enough v.counts vector
  unfold sendResponse
  split at sent
  · rename_i fits
    rw [if_pos fits]
    obtain ⟨s, run, told⟩ := sent
    have length := told.sent.length
    refine ⟨s, ?_, told⟩
    rw [run, Option.bind_some]
    exact if_pos (by omega)
  · rename_i long
    rw [if_neg long, sent, Option.bind_none]

theorem used_eq_room {a : Argument} (small : ∀ xs, a = .cstring xs → xs.length < 65536) :
    a.used = a.room := by
  cases a with
  | string xs => rfl
  | number n => rfl
  | cstring xs =>
    show xs.length % 65536 + 1 = xs.length + 1
    rw [Nat.mod_eq_of_lt (small xs rfl)]

theorem usedAll_eq (small : ∀ c ∈ clusters, ∀ xs, .cstring xs ∈ c.arguments → xs.length < 65536) :
    usedAll clusters = (clusters.flatMap fun c => c.arguments.map Argument.room).sum := by
  induction clusters with
  | nil => rfl
  | cons c clusters ih =>
    have rest := ih fun c' mem => small c' (List.mem_cons_of_mem _ mem)
    have here : c.arguments.map Argument.used = c.arguments.map Argument.room :=
      List.map_congr_left fun a mem => used_eq_room fun xs same =>
        small c List.mem_cons_self xs (same ▸ mem)
    unfold usedAll at rest ⊢
    rw [List.map_cons, List.sum_cons, List.flatMap_cons, List.sum_append, rest]
    unfold used
    rw [here]

/-- A status vector comes over if and only if its counted strings fit the buffer of
`send_response` and have no zero byte, and no other string is longer than 65535 bytes. -/
theorem survives_iff (protocol : Nat) (interprete : List Status → Option (List UInt8))
    (v : StatusVector) : Survives protocol interprete v ↔ Carried protocol v := by
  have bounds := v.short
  obtain ⟨count, -⟩ := length_entries protocol v.clusters
  have fewer := said_items_le protocol v.clusters
  rw [List.length_append, List.length_singleton] at bounds
  have tagged : ∀ item ∈ itemsOf protocol (said protocol v.clusters), item.Tagged := itemsOf_tagged
  have table := slots_le (itemsOf protocol (said protocol v.clusters))
  constructor
  · intro survives
    obtain ⟨sent, run, travels⟩ := survives (fun _ => 0) (fun _ => 0) fun _ => 0
    have made := sendResponse_spec protocol interprete (fun _ => 0) v
    split at made
    · rename_i fits
      obtain ⟨s, run', told⟩ := made
      obtain rfl := Option.some.inj (run.symm.trans run')
      obtain ⟨bytes, encoded, decoded⟩ := travels []
      have short := xdrStatusEncode_short told.sent told.bound tagged encoded
      have exact_bytes : xdrStatusEncode (fun _ => 0) s.buffer (s.newVector ++ [.number 0])
          ⟨.encode, [], fun _ => 0⟩ = some ⟨.encode, [] ++ itemsBytes (fun _ => 0)
            (itemsOf protocol (said protocol v.clusters)), fun _ => 0⟩ :=
        xdrStatusEncode_eq told.sent told.bound tagged short []
      have same : bytes = itemsBytes (fun _ => 0) (itemsOf protocol (said protocol v.clusters)) :=
        congrArg Xdr.stream (Option.some.inj (encoded.symm.trans exact_bytes))
      subst same
      have read := decoded []
      rw [xdrStatusDecode_eq tagged short (by
        have := length_itemsBytes (fun _ => 0) (itemsOf protocol (said protocol v.clusters))
        rw [List.append_nil]
        exact this) (by omega) (by omega)] at read
      have vectors := congrArg Prod.fst (Option.some.inj read)
      rw [received_eq] at vectors
      have items := entries_injective (List.append_cancel_right vectors)
      have whole := itemsOf_eq_iff.mp items
      have clean : ∀ c ∈ said protocol v.clusters, ∀ xs, .cstring xs ∈ c.arguments →
          0 ∉ xs ∧ xs.length < 65536 := by
        intro c hc xs hxs
        have equal := whole c hc _ hxs
        exact (cut_eq_iff xs).mp (Item.string.inj equal).2
      refine ⟨?_, fun c hc xs hxs => (clean c hc xs hxs).1, fun c hc xs hxs => ?_⟩
      · rw [← usedAll_eq fun c hc xs hxs => (clean c hc xs hxs).2]
        exact fits
      · have mem : Item.string 2 (xs.takeWhile (· ≠ 0)) ∈
            itemsOf protocol (said protocol v.clusters) :=
          List.mem_flatMap.mpr ⟨c, hc, List.mem_cons_of_mem _ (List.mem_map.mpr ⟨_, hxs, rfl⟩)⟩
        have fits := short _ mem
        rw [takeWhile_clean (v.terminated c (said_subset _ _ c hc) xs hxs)] at fits
        exact fits
    · exact absurd (run.symm.trans made) (by simp)
  · intro carried stack trash m
    have small : ∀ c ∈ said protocol v.clusters, ∀ xs, .cstring xs ∈ c.arguments →
        xs.length < 65536 := by
      intro c hc xs hxs
      have mem : xs.length + 1 ∈
          (said protocol v.clusters).flatMap fun c => c.arguments.map Argument.room :=
        List.mem_flatMap.mpr ⟨c, hc, List.mem_map.mpr ⟨_, hxs, rfl⟩⟩
      have le := List.le_sum_of_mem mem
      have room := carried.room
      omega
    have fits : usedAll (said protocol v.clusters) ≤ 1024 := by
      rw [usedAll_eq small]
      exact carried.room
    have whole : ∀ c ∈ said protocol v.clusters, ∀ a ∈ c.arguments, a.item = a.whole := by
      intro c hc a ha
      cases a with
      | string xs =>
        show Item.string 2 (xs.takeWhile (· ≠ 0)) = Item.string 2 xs
        rw [takeWhile_clean (v.terminated c (said_subset _ _ c hc) xs ha)]
      | cstring xs =>
        show Item.string 2 (cut xs) = Item.string 2 xs
        rw [(cut_eq_iff xs).mpr ⟨carried.whole c hc xs ha, small c hc xs ha⟩]
      | number n => rfl
    have short : ∀ item ∈ itemsOf protocol (said protocol v.clusters), item.Short := by
      intro item mem
      obtain ⟨c, hc, mem⟩ := List.mem_flatMap.mp mem
      rcases List.mem_cons.mp mem with rfl | mem
      · trivial
      · obtain ⟨a, ha, rfl⟩ := List.mem_map.mp mem
        rw [whole c hc a ha]
        cases a with
        | string xs => exact carried.short c hc xs ha
        | cstring xs => exact Nat.le_of_lt_succ (small c hc xs ha)
        | number n => trivial
    have made := sendResponse_spec protocol interprete stack v
    rw [if_pos fits] at made
    obtain ⟨s, run, told⟩ := made
    refine ⟨_, run, fun before => ⟨_, xdrStatusEncode_eq told.sent told.bound tagged short before,
      fun rest => ?_⟩⟩
    rw [xdrStatusDecode_eq tagged short (by
      have := length_itemsBytes trash (itemsOf protocol (said protocol v.clusters))
      rw [List.length_append]
      omega) (by omega) (by omega), received_eq, itemsOf_eq_iff.mpr whole]

end

/-- A code with a counted string of `n` letters. -/
def oneString (n : Nat) (small : n < 4294967296) : StatusVector where
  clusters := [⟨false, 335544321, [.cstring (List.replicate n 65)]⟩]
  terminated := by simp
  counts := by simp [small]
  short := by simp [Cluster.entries, Argument.entries]

theorem oneString_lost {n : Nat} {small : n < 4294967296} (long : 1024 < n % 65536 + 1) :
    ¬Survives 10 (fun _ => none) (oneString n small) := by
  intro survives
  obtain ⟨sent, run, -⟩ := survives (fun _ => 0) (fun _ => 0) fun _ => 0
  have made := sendResponse_spec 10 (fun _ => none) (fun _ => 0) (oneString n small)
  have taken : usedAll (said 10 (oneString n small).clusters) = n % 65536 + 1 := by
    simp [oneString, said, usedAll, used, Argument.used]
  rw [taken, if_neg (Nat.not_le.mpr long)] at made
  exact absurd (run.symm.trans made) (by simp)

/-- The string and its zero byte do not fit 1024 bytes. -/
theorem survives_overflows : ¬Survives 10 (fun _ => none) (oneString 1024 (by decide)) :=
  oneString_lost (by decide)

end InterBase.Response
