import LineStore.Files.Host
import LineStore.Proofs.Files.Publish
import LineStore.Proofs.Text.Ascii
import LineStore.Text.Cut

/-!
# Hidden names

A host makes the hidden name of a write from two numbers in fixed words, so the name has at most 36
bytes, holds no zero byte and starts with a dot. The first two leave the length of the root's path
as the only thing that can be wrong with it (`refusal?_hidden`); the last keeps it apart from every
name that does not start with a dot (`hidden_ne_encode`).
-/

namespace LineStore

namespace Host

/-- The hidden name of the next write. -/
def hidden (host : Host) : Name := hiddenName host.process host.writes

def hiddenChars (process : UInt32) (writes : UInt64) : List Char :=
  ['.', 't', 'm', 'p', '-'] ++ Numeral.write process.toNat ++ '-' :: Numeral.write writes.toNat

theorem hidden_eq (host : Host) :
    host.hidden = Utf8.encode (String.ofList (hiddenChars host.process host.writes)) := rfl

theorem mem_hiddenChars {process : UInt32} {writes : UInt64} {c : Char}
    (h : c ∈ hiddenChars process writes) : c ∈ ['.', 't', 'm', 'p', '-'] ∨ c.isDigit = true := by
  rw [hiddenChars, List.mem_append, List.mem_append] at h
  rcases h with (h | h) | h
  · exact .inl h
  · exact .inr (Numeral.isDigit_of_mem_write h)
  · rcases List.mem_cons.1 h with rfl | h
    · exact .inl (by decide)
    · exact .inr (Numeral.isDigit_of_mem_write h)

theorem val_le_of_mem_hiddenChars {process : UInt32} {writes : UInt64} {c : Char}
    (h : c ∈ hiddenChars process writes) : c.val ≤ 127 ∧ c ≠ '\x00' := by
  rcases mem_hiddenChars h with hc | hd
  · simp only [List.mem_cons, List.not_mem_nil, or_false] at hc
    rcases hc with rfl | rfl | rfl | rfl | rfl <;> decide
  · simp only [Char.isDigit, Bool.and_eq_true, decide_eq_true_eq] at hd
    refine ⟨UInt32.le_trans hd.2 (by decide), ?_⟩
    rintro rfl
    exact absurd hd.1 (by decide)

theorem length_hiddenChars (process : UInt32) (writes : UInt64) :
    (hiddenChars process writes).length ≤ 36 := by
  have hp : (Numeral.write process.toNat).length ≤ 10 :=
    (Nat.length_toDigits_le_iff (by decide) (by decide)).2
      (Nat.lt_trans process.toNat_lt (by decide))
  have hw : (Numeral.write writes.toNat).length ≤ 20 :=
    (Nat.length_toDigits_le_iff (by decide) (by decide)).2
      (Nat.lt_trans writes.toNat_lt (by decide))
  rw [hiddenChars, List.length_append, List.length_append, List.length_cons]
  simp only [List.length_cons, List.length_nil]
  omega

theorem length_hidden (host : Host) : host.hidden.length ≤ 36 := by
  rw [hidden_eq, Utf8.length_encode_ofList fun c hc => (val_le_of_mem_hiddenChars hc).1]
  exact length_hiddenChars _ _

theorem zero_not_mem_hidden (host : Host) : 0 ∉ host.hidden := by
  rw [hidden_eq, Utf8.zero_mem_encode, String.toList_ofList]
  intro h
  exact (val_le_of_mem_hiddenChars h).2 rfl

/-- **Two writes have one hidden name only if they are one write.** -/
theorem hiddenName_inj {process process' : UInt32} {writes writes' : UInt64}
    (h : hiddenName process writes = hiddenName process' writes') :
    process = process' ∧ writes = writes' := by
  have hchars : hiddenChars process writes = hiddenChars process' writes' := by
    have := congrArg String.toList (Utf8.encode_injective h)
    rwa [String.toList_ofList, String.toList_ofList] at this
  rw [hiddenChars, hiddenChars, List.append_assoc, List.append_assoc] at hchars
  have hcut := congrArg (Text.cut? '-') (List.append_cancel_left hchars)
  rw [Text.cut?_append _ (Numeral.not_mem_write (by decide)),
    Text.cut?_append _ (Numeral.not_mem_write (by decide))] at hcut
  have read : ∀ {a b : Nat}, Numeral.write a = Numeral.write b → a = b := by
    intro a b hab
    have hdigits := congrArg Numeral.digits? hab
    rw [Numeral.digits?_write, Numeral.digits?_write] at hdigits
    exact Option.some.inj hdigits
  obtain ⟨hp, hw⟩ := Prod.mk.inj (Option.some.inj hcut)
  exact ⟨UInt32.toNat_inj.1 (read hp), UInt64.toNat_inj.1 (read hw)⟩

theorem head?_hiddenName (process : UInt32) (writes : UInt64) :
    (hiddenName process writes).head? = some 0x2E := by
  unfold hiddenName
  rw [Utf8.encode_ofList]
  rfl

theorem hidden_ne_encode (host : Host) {s : String} (h : s.toList.head? ≠ some '.') :
    host.hidden ≠ Utf8.encode s := by
  intro he
  have := Utf8.encode_injective ((hidden_eq host).symm.trans he)
  rw [← this, String.toList_ofList] at h
  exact h rfl

/-- **Nothing but the length of the root's path can be wrong with a hidden name.** -/
theorem refusal?_hidden (host : Host) {root : Path} (hz : root.hasZero = false) :
    root.trim.refusal? host.hidden =
      if Path.limit < (root.trim.child host.hidden).length then some .nameTooLong else none := by
  rw [← root.alike_trim.hasZero_eq] at hz
  have hn : ¬ Tree.nameLimit < host.hidden.length := by
    have := host.length_hidden
    rw [Tree.nameLimit]
    omega
  rw [Path.refusal?, hz, if_neg (by simpa using host.zero_not_mem_hidden)]
  simp only [hn, or_false]

/-! ## Writing to a child -/

/-- **A host's write to a child of an opened directory.** Whatever comes of it, a number is used up.
-/
theorem writeAtomic_child {host : Host} {root : Path} {home : Location} {n : Name}
    (h : host.tree.Opens root home) (hv : host.tree.get? (host.hidden :: home) = none)
    (hne : host.hidden ≠ n) (content : Bytes) (mode : WriteMode) :
    host.writeAtomic (root.child n) content mode =
      match AtomicWrite.hindrance? host.tree root.trim root home host.hidden n mode with
      | some e => (.error e, host.wrote (host.prepare (root.child n) content mode) host.tree)
      | none =>
        (.ok (), host.wrote (host.prepare (root.child n) content mode)
          (host.tree.place home n (.file ⟨host.tree.freshId, content, host.now⟩))) := by
  have hr : (host.prepare (root.child n) content mode).run host.now host.tree =
      match AtomicWrite.hindrance? host.tree root.trim root home host.hidden n mode with
      | some e => (.error e, host.tree)
      | none =>
        (.ok (), host.tree.place home n (.file ⟨host.tree.freshId, content, host.now⟩)) :=
    AtomicWrite.run_child h rfl (h.alike root.alike_trim) (Path.sibling_child ..) hv hne host.now
  cases hx : AtomicWrite.hindrance? host.tree root.trim root home host.hidden n mode with
  | some e => rw [hx] at hr; rw [writeAtomic, hr]
  | none => rw [hx] at hr; rw [writeAtomic, hr]

end Host
end LineStore
