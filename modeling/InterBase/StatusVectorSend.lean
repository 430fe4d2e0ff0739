import InterBase.StatusVectorWire

namespace InterBase.Response

open Memory BigEndian

/-- What comes over of a counted string: as much as a `USHORT` counts, up to a zero byte. -/
def cut (characters : List UInt8) : List UInt8 :=
  (characters.take (characters.length % 65536)).takeWhile (· ≠ 0)

def Argument.item : Argument → Item
  | string characters => .string 2 (characters.takeWhile (· ≠ 0))
  | cstring characters => .string 2 (cut characters)
  | number n => .number 4 n

/-- What `send_response` takes of the buffer for an argument. -/
def Argument.used : Argument → Nat
  | string _ => 0
  | cstring characters => characters.length % 65536 + 1
  | number _ => 0

def used (arguments : List Argument) : Nat := (arguments.map Argument.used).sum

def Cluster.items (protocol : Nat) (c : Cluster) : List Item :=
  .number c.tag (clientCode protocol c.code) :: c.arguments.map Argument.item

/-- What has been sent so far. -/
structure Sending.Says (s : Sending) (items : List Item) : Prop where
  sent : SentAs s.buffer s.p s.newVector items
  bound : s.p ≤ 1024

section

variable {s s' : Sending} {items : List Item} {arguments : List Argument} {tail : List Status}
  {protocol : Nat} {interprete : List Status → Option (List UInt8)}

theorem put_put (room : s.newVector.length + 2 ≤ 20) (a b : Status) :
    ((s.put a).bind fun s => s.put b) = some { s with newVector := s.newVector ++ [a, b] } := by
  have first : s.put a = some { s with newVector := s.newVector ++ [a] } := if_pos (by omega)
  rw [first, Option.bind_some]
  refine (if_pos ?_).trans ?_
  · show (s.newVector ++ [a]).length < 20
    rw [List.length_append, List.length_singleton]
    omega
  · simp

theorem put_put_buffer (room : s.newVector.length + 2 ≤ 20) (a : Status) :
    ((s.put a).bind fun s => s.put (.buffer s.p)) =
      some { s with newVector := s.newVector ++ [a, .buffer s.p] } := by
  have both := put_put room a (.buffer s.p)
  have first : s.put a = some { s with newVector := s.newVector ++ [a] } := if_pos (by omega)
  rw [first, Option.bind_some] at both ⊢
  exact both

theorem Sending.Says.push (h : s.Says items) {a b : Status} {item : Item}
    (pair : SentAs s.buffer s.p [a, b] [item]) :
    Sending.Says { s with newVector := s.newVector ++ [a, b] } (items ++ [item]) :=
  ⟨h.sent.append pair, h.bound⟩

theorem takeWhile_prefix_zero (xs : List UInt8) :
    ∃ ys, xs ++ [0] = xs.takeWhile (· ≠ 0) ++ [0] ++ ys := by
  induction xs with
  | nil => exact ⟨[], rfl⟩
  | cons x xs ih =>
    by_cases zero : x = 0
    · exact ⟨xs ++ [0], by simp [zero]⟩
    · obtain ⟨ys, equal⟩ := ih
      refine ⟨ys, ?_⟩
      rw [List.takeWhile_cons_of_pos (by simpa using zero), List.cons_append, List.cons_append,
        List.cons_append, equal]

theorem not_mem_takeWhile (xs : List UInt8) : 0 ∉ xs.takeWhile (· ≠ 0) := by
  intro mem
  have not_zero := List.mem_takeWhile_imp mem
  simp at not_zero

/-- A counted string becomes one that ends with a zero byte. -/
theorem Sending.Says.store (h : s.Says items) {characters : List UInt8}
    (room : s.p + (characters.length % 65536 + 1) ≤ 1024) :
    ∃ s', Sending.store { s with newVector := s.newVector ++ [.number 2, .buffer s.p] }
        (characters.take (characters.length % 65536) ++ [0]) = some s' ∧
      s'.Says (items ++ [.string 2 (cut characters)]) ∧
      s'.p = s.p + (characters.length % 65536 + 1) := by
  let bytes := characters.take (characters.length % 65536) ++ [0]
  have length : bytes.length = characters.length % 65536 + 1 := by
    have le := Nat.mod_le characters.length 65536
    rw [List.length_append, List.length_take, List.length_singleton, Nat.min_eq_left le]
  refine ⟨⟨s.newVector ++ [.number 2, .buffer s.p], write s.buffer s.p bytes,
    s.p + bytes.length⟩, ?_, ⟨?_, ?_⟩, ?_⟩
  · refine (if_pos ?_).trans rfl
    show s.p + bytes.length ≤ 1024
    omega
  · refine SentAs.append ?_ (.string 2 ?_ .nil)
    · exact h.sent.mono (Nat.le_add_right _ _) fun i less => write_below _ _ less
    · obtain ⟨ys, split⟩ := takeWhile_prefix_zero (characters.take (characters.length % 65536))
      have holds : Holds (write s.buffer s.p bytes) s.p bytes := holds_write _ _ _
      have front : bytes = cut characters ++ [0] ++ ys := split
      have total := congrArg List.length front
      simp only [List.length_append, List.length_singleton] at total
      rw [front, holds_append] at holds
      rw [← front] at holds
      refine .buffer s.p _ (not_mem_takeWhile _) holds.1 ?_
      show s.p + (cut characters).length < s.p + bytes.length
      omega
  · show s.p + bytes.length ≤ 1024
    omega
  · show s.p + bytes.length = _
    rw [length]

/-- The next entry is not an argument. -/
def Ends : List Status → Prop
  | .number tag :: _ => tag ≠ 2 ∧ tag ≠ 3 ∧ tag ≠ 4
  | _ => False

theorem sendArguments_ends (h : Ends tail) : sendArguments tail s = some (tail, s) := by
  rcases tail with _ | ⟨entry, rest⟩
  · exact h.elim
  · cases entry with
    | text _ => exact h.elim
    | buffer _ => exact h.elim
    | number tag =>
      obtain ⟨not2, not3, not4⟩ := h
      unfold sendArguments
      rw [if_neg (by simp [not2, not4]), if_neg not3]

theorem sendArguments_pair {tag : UInt32} (plain : tag = 2 ∨ tag = 4) (argument : Status)
    (rest : List Status) (s : Sending) :
    sendArguments (.number tag :: argument :: rest) s =
      ((s.put (.number tag)).bind fun s => s.put argument).bind (sendArguments rest) := by
  conv_lhs => unfold sendArguments
  rw [if_pos plain]

theorem sendArguments_cstring (length : UInt32) (characters : List UInt8) (rest : List Status)
    (s : Sending) :
    sendArguments (.number 3 :: .number length :: .text characters :: rest) s =
      if length.toNat % 65536 ≤ characters.length then
        ((s.put (.number 2)).bind fun s => s.put (.buffer s.p)).bind fun s =>
          (s.store (characters.take (length.toNat % 65536) ++ [0])).bind (sendArguments rest)
      else none := by
  conv_lhs => unfold sendArguments
  rw [if_neg (by decide), if_pos rfl]

/-- Arguments that fit are all sent. -/
theorem sendArguments_spec (h : s.Says items) (ends : Ends tail)
    (counts : ∀ xs, .cstring xs ∈ arguments → xs.length < 4294967296)
    (vector : 2 * (items.length + arguments.length) ≤ 20) (room : s.p + used arguments ≤ 1024) :
    ∃ s', sendArguments (arguments.flatMap Argument.entries ++ tail) s = some (tail, s') ∧
      s'.Says (items ++ arguments.map Argument.item) ∧ s'.p = s.p + used arguments := by
  induction arguments generalizing s items with
  | nil =>
    refine ⟨s, sendArguments_ends ends, ?_, rfl⟩
    rw [List.map_nil, List.append_nil]
    exact h
  | cons argument arguments ih =>
    have length := h.sent.length
    rw [List.length_cons] at vector
    have counts' := fun xs mem => counts xs (List.mem_cons_of_mem argument mem)
    unfold used at room ih ⊢
    simp only [List.map_cons, List.sum_cons] at room ⊢
    rw [List.flatMap_cons, List.append_assoc]
    have single : ∀ item : Item, (items ++ [item]).length = items.length + 1 := by simp
    cases argument with
    | string xs =>
      have pushed := h.push (.string 2 (.text xs) .nil)
      obtain ⟨s', run, told, position⟩ := ih pushed counts' (by rw [single]; omega)
        (show s.p + _ ≤ 1024 by simpa [Argument.used] using room)
      refine ⟨s', ?_, by simpa [Argument.item] using told, by
        rw [position]
        simp [Argument.used]⟩
      refine (sendArguments_pair (.inl rfl) _ _ s).trans ?_
      rw [put_put (by omega), Option.bind_some]
      exact run
    | number n =>
      have pushed := h.push (.number 4 n .nil)
      obtain ⟨s', run, told, position⟩ := ih pushed counts' (by rw [single]; omega)
        (show s.p + _ ≤ 1024 by simpa [Argument.used] using room)
      refine ⟨s', ?_, by simpa [Argument.item] using told, by
        rw [position]
        simp [Argument.used]⟩
      refine (sendArguments_pair (.inr rfl) _ _ s).trans ?_
      rw [put_put (by omega), Option.bind_some]
      exact run
    | cstring xs =>
      have small := counts xs List.mem_cons_self
      have count : (UInt32.ofNat xs.length).toNat = xs.length := UInt32.toNat_ofNat_of_lt' small
      simp only [Argument.used] at room ⊢
      have fits : s.p + (xs.length % 65536 + 1) ≤ 1024 := by omega
      obtain ⟨s₁, stored, pushed, position₁⟩ := h.store fits
      obtain ⟨s', run, told, position⟩ := ih pushed counts' (by rw [single]; omega) (by omega)
      refine ⟨s', ?_, by simpa [Argument.item] using told, by omega⟩
      refine (sendArguments_cstring _ xs _ s).trans ?_
      rw [count, if_pos (Nat.mod_le _ _), put_put_buffer (by omega), Option.bind_some, stored,
        Option.bind_some]
      exact run

/-- Arguments that do not fit the buffer run out of it. -/
theorem sendArguments_none (h : s.Says items)
    (counts : ∀ xs, .cstring xs ∈ arguments → xs.length < 4294967296)
    (vector : 2 * (items.length + arguments.length) ≤ 20) (long : 1024 < s.p + used arguments) :
    sendArguments (arguments.flatMap Argument.entries ++ tail) s = none := by
  induction arguments generalizing s items with
  | nil =>
    have bound := h.bound
    exact absurd long (Nat.not_lt.mpr bound)
  | cons argument arguments ih =>
    have length := h.sent.length
    rw [List.length_cons] at vector
    have counts' := fun xs mem => counts xs (List.mem_cons_of_mem argument mem)
    unfold used at long ih
    simp only [List.map_cons, List.sum_cons] at long
    rw [List.flatMap_cons, List.append_assoc]
    have single : ∀ item : Item, (items ++ [item]).length = items.length + 1 := by simp
    cases argument with
    | string xs =>
      refine (sendArguments_pair (.inl rfl) _ _ s).trans ?_
      rw [put_put (by omega), Option.bind_some]
      exact ih (h.push (.string 2 (.text xs) .nil)) counts' (by rw [single]; omega)
        (show 1024 < s.p + _ by simpa [Argument.used] using long)
    | number n =>
      refine (sendArguments_pair (.inr rfl) _ _ s).trans ?_
      rw [put_put (by omega), Option.bind_some]
      exact ih (h.push (.number 4 n .nil)) counts' (by rw [single]; omega)
        (show 1024 < s.p + _ by simpa [Argument.used] using long)
    | cstring xs =>
      have small := counts xs List.mem_cons_self
      have count : (UInt32.ofNat xs.length).toNat = xs.length := UInt32.toNat_ofNat_of_lt' small
      simp only [Argument.used] at long
      refine (sendArguments_cstring _ xs _ s).trans ?_
      rw [count, if_pos (Nat.mod_le _ _), put_put_buffer (by omega), Option.bind_some]
      by_cases fits : s.p + (xs.length % 65536 + 1) ≤ 1024
      · obtain ⟨s₁, stored, pushed, position₁⟩ := h.store fits
        rw [stored, Option.bind_some]
        exact ih pushed counts' (by rw [single]; omega) (by omega)
      · have le := Nat.mod_le xs.length 65536
        have full : Sending.store { s with newVector := s.newVector ++ [.number 2, .buffer s.p] }
            (xs.take (xs.length % 65536) ++ [0]) = none := by
          refine if_neg ?_
          rw [List.length_append, List.length_take, List.length_singleton, Nat.min_eq_left le]
          exact fits
        rw [full, Option.bind_none]

def usedAll (clusters : List Cluster) : Nat := (clusters.map fun c => used c.arguments).sum

def itemsOf (protocol : Nat) (clusters : List Cluster) : List Item :=
  clusters.flatMap (Cluster.items protocol)

theorem said_cons (protocol : Nat) (c : Cluster) (clusters : List Cluster) :
    said protocol (c :: clusters) =
      if protocol < 10 ∧ c.warning = true then [] else c :: said protocol clusters := by
  unfold said
  by_cases old : protocol < 10
  · rw [if_pos old, if_pos old]
    cases warning : c.warning <;> simp [warning, old]
  · rw [if_neg old, if_neg old, if_neg fun h => old h.1]

theorem ends_next (clusters : List Cluster) :
    Ends (clusters.flatMap Cluster.entries ++ [.number 0]) := by
  cases clusters with
  | nil => exact ⟨by decide, by decide, by decide⟩
  | cons c clusters =>
    show c.tag ≠ 2 ∧ c.tag ≠ 3 ∧ c.tag ≠ 4
    unfold Cluster.tag
    split <;> exact ⟨by decide, by decide, by decide⟩

theorem sendLoop_cluster (c : Cluster) (fuel : Nat) (rest : List Status) (s : Sending)
    (sent : ¬(protocol < 10 ∧ c.warning = true)) :
    sendLoop protocol interprete (fuel + 1) (c.entries ++ rest) s =
      ((s.put (.number c.tag)).bind fun s => s.put (.number (clientCode protocol c.code))).bind
        fun s => (sendArguments (c.arguments.flatMap Argument.entries ++ rest) s).bind
          fun (rest, s) => sendLoop protocol interprete fuel rest s := by
  have entries : c.entries ++ rest = .number c.tag :: .number c.code ::
      (c.arguments.flatMap Argument.entries ++ rest) := rfl
  rw [entries]
  conv_lhs => unfold sendLoop
  have some : c.tag ≠ 0 := by
    unfold Cluster.tag
    split <;> decide
  have code : c.tag.toNat % 65536 = 18 ∨ c.tag.toNat % 65536 = 1 := by
    unfold Cluster.tag
    split
    · exact .inl (by decide)
    · exact .inr (by decide)
  have passed : ¬(c.tag = 18 ∧ protocol < 10) := by
    rintro ⟨warning, old⟩
    refine sent ⟨old, ?_⟩
    unfold Cluster.tag at warning
    split at warning
    · assumption
    · exact absurd warning (by decide)
  rw [if_neg some, if_pos code, if_neg passed]
  rfl

theorem sendLoop_stops (c : Cluster) (fuel : Nat) (rest : List Status) (s : Sending)
    (unsent : protocol < 10 ∧ c.warning = true) :
    sendLoop protocol interprete (fuel + 1) (c.entries ++ rest) s = some s := by
  have tag : c.tag = 18 := if_pos unsent.2
  have entries : c.entries ++ rest = .number 18 :: .number c.code ::
      (c.arguments.flatMap Argument.entries ++ rest) := by
    unfold Cluster.entries
    rw [tag]
    rfl
  rw [entries]
  conv_lhs => unfold sendLoop
  rw [if_neg (by decide), if_pos (.inl (by decide)), if_pos ⟨rfl, unsent.1⟩]

theorem sendLoop_spec {clusters : List Cluster} {fuel : Nat} (h : s.Says items)
    (enough : clusters.length < fuel)
    (counts : ∀ c ∈ clusters, ∀ xs, .cstring xs ∈ c.arguments → xs.length < 4294967296)
    (vector : 2 * (items.length + (itemsOf protocol clusters).length) ≤ 20) :
    if s.p + usedAll (said protocol clusters) ≤ 1024 then
      ∃ s', sendLoop protocol interprete fuel (clusters.flatMap Cluster.entries ++ [.number 0]) s =
        some s' ∧ s'.Says (items ++ itemsOf protocol (said protocol clusters))
    else sendLoop protocol interprete fuel (clusters.flatMap Cluster.entries ++ [.number 0]) s =
      none := by
  induction clusters generalizing s items fuel with
  | nil =>
    obtain ⟨fuel, rfl⟩ : ∃ k, fuel = k + 1 := ⟨fuel - 1, by simp at enough; omega⟩
    have nothing : said protocol [] = [] := by simp [said]
    rw [nothing, if_pos (show s.p + usedAll [] ≤ 1024 from h.bound)]
    refine ⟨s, ?_, ?_⟩
    · rw [List.flatMap_nil, List.nil_append, sendLoop, if_pos rfl]
    · unfold itemsOf
      rw [List.flatMap_nil, List.append_nil]
      exact h
  | cons c clusters ih =>
    rw [List.length_cons] at enough
    obtain ⟨fuel, rfl⟩ : ∃ k, fuel = k + 1 := ⟨fuel - 1, by omega⟩
    rw [List.flatMap_cons, List.append_assoc, said_cons]
    by_cases unsent : protocol < 10 ∧ c.warning = true
    · rw [if_pos unsent, if_pos (show s.p + usedAll [] ≤ 1024 from h.bound)]
      refine ⟨s, sendLoop_stops c fuel _ s unsent, ?_⟩
      unfold itemsOf
      rw [List.flatMap_nil, List.append_nil]
      exact h
    · rw [if_neg unsent, sendLoop_cluster c fuel _ s unsent]
      unfold itemsOf at vector ih
      rw [List.flatMap_cons, List.length_append] at vector
      have size : (c.items protocol).length = c.arguments.length + 1 := by
        simp [Cluster.items]
      have length := h.sent.length
      rw [put_put (by omega), Option.bind_some]
      have pushed := h.push (.number c.tag (clientCode protocol c.code) .nil)
      have here := counts c List.mem_cons_self
      have total : usedAll (c :: said protocol clusters) =
          used c.arguments + usedAll (said protocol clusters) := by
        simp [usedAll]
      rw [total]
      by_cases fits : s.p + used c.arguments ≤ 1024
      · obtain ⟨s₁, run, told, position⟩ := sendArguments_spec pushed (ends_next clusters) here
          (by rw [List.length_append, List.length_singleton]; omega) fits
        have later := ih told (show clusters.length < fuel by omega)
          (fun c' mem => counts c' (List.mem_cons_of_mem _ mem)) (by
            rw [List.length_append, List.length_append, List.length_singleton, List.length_map]
            omega)
        rw [run, Option.bind_some]
        have position' : s₁.p = s.p + used c.arguments := position
        rw [position', Nat.add_assoc] at later
        refine (congrArg (fun P : Prop => P) ?_).mp later
        simp only [itemsOf, List.flatMap_cons, Cluster.items, List.append_assoc,
          List.cons_append, List.nil_append]
      · rw [if_neg (by omega), sendArguments_none pushed here
          (by rw [List.length_append, List.length_singleton]; omega) (Nat.not_le.mp fits)]
        rfl

end

end InterBase.Response
