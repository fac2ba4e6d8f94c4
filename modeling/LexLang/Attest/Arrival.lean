/-
# LexLang.Attest.Arrival — stamps under any interleaving

Whatever puts run at once, and wherever they are cut off, the stamps order the attestations: no two ids
have one stamp, a stamp stays, what a put created has one and what is older has none, and what was put
before another was begun sorts before it (`arrival_orders`).

`Phase.Sound` says what holds where a call is, `Directory.Ordered` what holds of the files at every
point; `step_sound` is the one step, and the rest is induction over the run.
-/
import LexLang.Attest.Directory

namespace LexLang.Attest

open Option Std.ExtTreeMap

variable {legacy : AttestationId → Prop} {dir dir' : Directory} {call : CallId}

/-! ## What holds of the files -/

/-- A number above every stamp. -/
def Directory.Above (dir : Directory) (next : Nat) : Prop :=
  ∀ (id : AttestationId) (n : Nat), dir.log.arrival[id]? = some n → n < next

/-- **The files of a log that orders attestations**: the stamps are distinct and counted, what has no
stamp is legacy, and what is legacy has none. -/
structure Directory.Ordered (legacy : AttestationId → Prop) (dir : Directory) : Prop where
  distinct : ∀ (id id' : AttestationId) (n : Nat), dir.log.arrival[id]? = some n →
    dir.log.arrival[id']? = some n → id = id'
  counted : ∀ last, dir.log.counter = some last → dir.Above (last + 1)
  stamped : ∀ id ∈ dir.log.primary, legacy id ∨ id ∈ dir.log.arrival
  kept : ∀ id, legacy id → id ∈ dir.log.primary
  unstamped : ∀ id, legacy id → id ∉ dir.log.arrival

/-- **What holds where a call is.** Only the holder of the lock is between the second check and the
unlock, and the number it has taken is above every stamp. -/
def Phase.Sound (legacy : AttestationId → Prop) (dir : Directory) (call : CallId)
    (id : AttestationId) : Phase → Prop
  | .checkPrimary => True
  | .checkRecord => ¬ legacy id
  | .lockArrival => ¬ legacy id
  | .recheckRecord => ¬ legacy id ∧ dir.lock = some call
  | .readCounter => ¬ legacy id ∧ dir.lock = some call ∧ id ∉ dir.log.arrival
  | .scanArrival => ¬ legacy id ∧ dir.lock = some call ∧ id ∉ dir.log.arrival
  | .writeCounterTmp next =>
    ¬ legacy id ∧ dir.lock = some call ∧ id ∉ dir.log.arrival ∧ dir.Above next
  | .renameCounter next =>
    ¬ legacy id ∧ dir.lock = some call ∧ id ∉ dir.log.arrival ∧ dir.Above next ∧
      dir.counterTmp = some next
  | .writeRecordTmp next =>
    ¬ legacy id ∧ dir.lock = some call ∧ id ∉ dir.log.arrival ∧ dir.Above next ∧
      ∀ last, dir.log.counter = some last → next ≤ last
  | .renameRecord next =>
    ¬ legacy id ∧ dir.lock = some call ∧ id ∉ dir.log.arrival ∧ dir.Above next ∧
      (∀ last, dir.log.counter = some last → next ≤ last) ∧ dir.recordTmp[id]? = some next
  | .unlockArrival => dir.lock = some call ∧ id ∈ dir.log.arrival
  | .writePrimaryTmp => id ∈ dir.log.arrival
  | .renamePrimary => id ∈ dir.log.arrival
  | .writeIndex => id ∈ dir.log.primary
  | .returned => id ∈ dir.log.primary
  | .cutOff => True

/-- **What one step of a call changes**: files and stamps stay, a new stamp is above those there are,
and what the holder of the lock relies on is left to it. -/
structure Directory.Change (actor : Option (CallId × AttestationId)) (dir dir' : Directory) :
    Prop where
  primary : ∀ id ∈ dir.log.primary, id ∈ dir'.log.primary
  arrival : ∀ (id : AttestationId) (n : Nat), dir.log.arrival[id]? = some n →
    dir'.log.arrival[id]? = some n
  stamps : ∀ (id : AttestationId) (n : Nat), dir'.log.arrival[id]? = some n →
    dir.log.arrival[id]? = some n ∨ dir.Above n ∧ ∃ call, actor = some (call, id)
  others : ∀ call', (∀ own, actor ≠ some (call', own)) → dir.lock = some call' →
    dir'.lock = some call' ∧ dir'.log.arrival = dir.log.arrival ∧
      (∀ last, dir'.log.counter = some last → dir.log.counter = some last) ∧
      dir'.counterTmp = dir.counterTmp ∧ dir'.recordTmp = dir.recordTmp

namespace Directory

variable {actor : Option (CallId × AttestationId)} {own : AttestationId}

theorem Change.refl (actor : Option (CallId × AttestationId)) (dir : Directory) : Change actor dir dir where
  primary := fun _ h => h
  arrival := fun _ _ h => h
  stamps := fun _ _ h => .inl h
  others := fun _ _ h => ⟨h, rfl, fun _ h => h, rfl, rfl⟩

/-- The holder of the lock may change what others do not read. -/
theorem Change.of_holder (hlock : dir.lock = some call)
    (hprimary : dir'.log.primary = dir.log.primary) (harrival : dir'.log.arrival = dir.log.arrival) :
    Change (some (call, own)) dir dir' where
  primary := fun _ h => hprimary ▸ h
  arrival := fun _ _ h => harrival ▸ h
  stamps := fun _ _ h => .inl (harrival ▸ h)
  others := fun _ hne h => by
    obtain rfl := some.inj (h.symm.trans hlock)
    exact absurd rfl (hne own)

/-- So may anyone change what the holder does not read. -/
theorem Change.of_others (hprimary : ∀ id ∈ dir.log.primary, id ∈ dir'.log.primary)
    (harrival : dir'.log.arrival = dir.log.arrival) (hcounter : dir'.log.counter = dir.log.counter)
    (hcounterTmp : dir'.counterTmp = dir.counterTmp) (hrecordTmp : dir'.recordTmp = dir.recordTmp)
    (hlock : ∀ call', dir.lock = some call' → dir'.lock = some call') : Change actor dir dir' where
  primary := hprimary
  arrival := fun _ _ h => harrival ▸ h
  stamps := fun _ _ h => .inl (harrival ▸ h)
  others := fun call' _ h =>
    ⟨hlock call' h, harrival, fun _ h => hcounter ▸ h, hcounterTmp, hrecordTmp⟩

/-- Being ordered is about the primary files, the stamps and the counter. -/
theorem Ordered.congr (h : Ordered legacy dir) (hprimary : dir'.log.primary = dir.log.primary)
    (harrival : dir'.log.arrival = dir.log.arrival)
    (hcounter : dir'.log.counter = dir.log.counter) : Ordered legacy dir' where
  distinct := by
    rw [harrival]
    exact h.distinct
  counted := by
    unfold Above
    rw [harrival, hcounter]
    exact h.counted
  stamped := by
    rw [hprimary, harrival]
    exact h.stamped
  kept := by
    rw [hprimary]
    exact h.kept
  unstamped := by
    rw [harrival]
    exact h.unstamped

@[simp] theorem release_log (dir : Directory) (call : CallId) : (dir.release call).log = dir.log := by
  unfold release
  split <;> rfl

theorem release_spec (dir : Directory) (call : CallId) (own : AttestationId) :
    Change (some (call, own)) dir (dir.release call) := by
  by_cases hlock : dir.lock = some call
  · exact Change.of_holder hlock (by rw [release_log]) (by rw [release_log])
  · rw [release, if_neg hlock]
    exact Change.refl _ dir

/-- A scan is above every stamp. -/
theorem above_scanArrivalHighWater (dir : Directory) : dir.Above (dir.scanArrivalHighWater + 1) := by
  have hmax : ∀ (entries : List (AttestationId × Nat)) (start : Nat),
      start ≤ entries.foldl (fun highest entry => max highest entry.2) start ∧
        ∀ entry ∈ entries, entry.2 ≤ entries.foldl (fun highest entry => max highest entry.2) start := by
    intro entries
    induction entries with
    | nil => exact fun start => ⟨le_rfl, fun entry h => nomatch h⟩
    | cons first entries ih =>
      intro start
      rw [List.foldl_cons]
      obtain ⟨hstart, hentries⟩ := ih (max start first.2)
      refine ⟨by omega, fun entry he => ?_⟩
      rcases List.mem_cons.mp he with rfl | he
      · omega
      · exact hentries entry he
  intro id n hn
  have hmem : (id, n) ∈ dir.log.arrival.toList :=
    Std.ExtTreeMap.mem_toList_iff_getElem?_eq_some.mpr hn
  have hrecords := (hmax dir.log.arrival.toList 0).2 (id, n) hmem
  have hall := (hmax dir.recordTmp.toList dir.log.scanArrivalHighWater).1
  have hle : n ≤ dir.log.scanArrivalHighWater := hrecords
  have hle' : dir.log.scanArrivalHighWater ≤ dir.scanArrivalHighWater := hall
  omega

end Directory

/-! ## One step -/

/-- **One operation of a call keeps the files ordered, and itself sound.** -/
theorem step_sound {a : Attestation} {phase phase' : Phase} (hordered : dir.Ordered legacy)
    (hsound : phase.Sound legacy dir call a.attestationId) (hstep : dir.step call a phase = some (dir', phase')) :
    dir'.Ordered legacy ∧ phase'.Sound legacy dir' call a.attestationId ∧
      dir.Change (some (call, a.attestationId)) dir' := by
  cases phase with
  | checkPrimary =>
    rw [Directory.step] at hstep
    split at hstep
    · next hin =>
      cases hstep
      exact ⟨hordered, hin, Directory.Change.refl _ _⟩
    · next hnot =>
      cases hstep
      exact ⟨hordered, fun h => hnot (hordered.kept _ h), Directory.Change.refl _ _⟩
  | checkRecord =>
    rw [Directory.step] at hstep
    split at hstep
    · next hin =>
      cases hstep
      exact ⟨hordered, hin, Directory.Change.refl _ _⟩
    · cases hstep
      exact ⟨hordered, hsound, Directory.Change.refl _ _⟩
  | lockArrival =>
    rw [Directory.step] at hstep
    split at hstep
    · next hfree =>
      cases hstep
      refine ⟨hordered.congr rfl rfl rfl, ⟨hsound, rfl⟩, ?_⟩
      refine Directory.Change.of_others (fun _ h => h) rfl rfl rfl rfl fun call' h => ?_
      rw [hfree] at h
      cases h
    · cases hstep
  | recheckRecord =>
    obtain ⟨hnew, hlock⟩ := hsound
    rw [Directory.step] at hstep
    split at hstep
    · next hin =>
      cases hstep
      exact ⟨hordered, ⟨hlock, hin⟩, Directory.Change.refl _ _⟩
    · next hnot =>
      cases hstep
      exact ⟨hordered, ⟨hnew, hlock, hnot⟩, Directory.Change.refl _ _⟩
  | readCounter =>
    obtain ⟨hnew, hlock, hnot⟩ := hsound
    rw [Directory.step] at hstep
    split at hstep
    · next last hlast =>
      cases hstep
      exact ⟨hordered, ⟨hnew, hlock, hnot, hordered.counted last hlast⟩,
        Directory.Change.refl _ _⟩
    · cases hstep
      exact ⟨hordered, ⟨hnew, hlock, hnot⟩, Directory.Change.refl _ _⟩
  | scanArrival =>
    obtain ⟨hnew, hlock, hnot⟩ := hsound
    cases hstep
    exact ⟨hordered, ⟨hnew, hlock, hnot, dir.above_scanArrivalHighWater⟩,
      Directory.Change.refl _ _⟩
  | writeCounterTmp next =>
    obtain ⟨hnew, hlock, hnot, habove⟩ := hsound
    cases hstep
    exact ⟨hordered.congr rfl rfl rfl, ⟨hnew, hlock, hnot, habove, rfl⟩,
      Directory.Change.of_holder hlock rfl rfl⟩
  | renameCounter next =>
    obtain ⟨hnew, hlock, hnot, habove, htmp⟩ := hsound
    rw [Directory.step, htmp] at hstep
    cases hstep
    refine ⟨⟨hordered.distinct, ?_, hordered.stamped, hordered.kept, hordered.unstamped⟩,
      ⟨hnew, hlock, hnot, habove, ?_⟩, Directory.Change.of_holder hlock rfl rfl⟩
    · intro last hlast id n hn
      obtain rfl := some.inj hlast
      have hlt := habove id n hn
      omega
    · intro last hlast
      obtain rfl := some.inj hlast
      exact le_rfl
  | writeRecordTmp next =>
    obtain ⟨hnew, hlock, hnot, habove, hcounted⟩ := hsound
    cases hstep
    exact ⟨hordered.congr rfl rfl rfl,
      ⟨hnew, hlock, hnot, habove, hcounted, Std.ExtTreeMap.getElem?_insert_self⟩,
      Directory.Change.of_holder hlock rfl rfl⟩
  | renameRecord next =>
    obtain ⟨hnew, hlock, hnot, habove, hcounted, htmp⟩ := hsound
    rw [Directory.step, htmp] at hstep
    cases hstep
    -- the stamps there are, and the new one
    have hstamps : ∀ (id : AttestationId) (n : Nat),
        (dir.log.arrival.insert a.attestationId next)[id]? = some n ↔
          dir.log.arrival[id]? = some n ∨ id = a.attestationId ∧ n = next := by
      intro id n
      rw [Std.ExtTreeMap.getElem?_insert]
      by_cases hid : a.attestationId = id
      · subst hid
        have hnone : dir.log.arrival[a.attestationId]? = none :=
          Std.ExtTreeMap.getElem?_eq_none hnot
        simp [hnone, eq_comm]
      · simp [hid, Ne.symm hid]
    refine ⟨⟨?_, ?_, ?_, hordered.kept, ?_⟩, ⟨hlock, ?_⟩, ?_, ?_, ?_, ?_⟩
    · intro id id' n hn hn'
      rcases (hstamps id n).mp hn with hold | ⟨rfl, rfl⟩
      · rcases (hstamps id' n).mp hn' with hold' | ⟨rfl, rfl⟩
        · exact hordered.distinct id id' n hold hold'
        · exact absurd (habove id n hold) (lt_irrefl n)
      · rcases (hstamps id' n).mp hn' with hold' | ⟨rfl, -⟩
        · exact absurd (habove id' n hold') (lt_irrefl n)
        · rfl
    · intro last hlast id n hn
      rcases (hstamps id n).mp hn with hold | ⟨rfl, rfl⟩
      · exact hordered.counted last hlast id n hold
      · exact Nat.lt_succ_of_le (hcounted last hlast)
    · intro id hid
      rcases hordered.stamped id hid with hlegacy | hin
      · exact .inl hlegacy
      · exact .inr (mem_insert.mpr (.inr hin))
    · intro id hlegacy hin
      rcases mem_insert.mp hin with hsame | hin
      · rw [Std.LawfulEqCmp.compare_eq_iff_eq] at hsame
        exact hnew (hsame ▸ hlegacy)
      · exact hordered.unstamped id hlegacy hin
    · exact mem_insert_self
    · exact fun _ h => h
    · exact fun id n hn => (hstamps id n).mpr (.inl hn)
    · intro id n hn
      rcases (hstamps id n).mp hn with hold | ⟨rfl, rfl⟩
      · exact .inl hold
      · exact .inr ⟨habove, call, rfl⟩
    · intro call' hne h
      obtain rfl := some.inj (h.symm.trans hlock)
      exact absurd rfl (hne a.attestationId)
  | unlockArrival =>
    obtain ⟨-, hin⟩ := hsound
    cases hstep
    refine ⟨hordered.congr ?_ ?_ ?_, ?_, dir.release_spec call _⟩
    · rw [Directory.release_log]
    · rw [Directory.release_log]
    · rw [Directory.release_log]
    · rw [Phase.Sound, Directory.release_log]
      exact hin
  | writePrimaryTmp =>
    cases hstep
    exact ⟨hordered.congr rfl rfl rfl, hsound,
      Directory.Change.of_others (fun _ h => h) rfl rfl rfl rfl fun _ h => h⟩
  | renamePrimary =>
    rw [Directory.step] at hstep
    split at hstep
    · cases hstep
      exact ⟨hordered, trivial, Directory.Change.refl _ _⟩
    · next b hb =>
      cases hstep
      have hmem : ∀ id ∈ dir.log.primary, id ∈ dir.log.primary.insert a.attestationId b :=
        fun id hid => mem_insert.mpr (.inr hid)
      refine ⟨⟨hordered.distinct, hordered.counted, ?_, ?_, hordered.unstamped⟩,
        mem_insert_self,
        Directory.Change.of_others hmem rfl rfl rfl rfl fun _ h => h⟩
      · intro id hid
        rcases mem_insert.mp hid with hsame | hin
        · rw [Std.LawfulEqCmp.compare_eq_iff_eq] at hsame
          exact .inr (hsame ▸ hsound)
        · exact hordered.stamped id hin
      · exact fun id hlegacy => hmem id (hordered.kept id hlegacy)
  | writeIndex =>
    have hindex : (dir.log.index a).primary = dir.log.primary ∧
        (dir.log.index a).arrival = dir.log.arrival ∧
        (dir.log.index a).counter = dir.log.counter := by
      unfold AttestationLog.index
      split <;> exact ⟨rfl, rfl, rfl⟩
    cases hstep
    refine ⟨hordered.congr hindex.1 hindex.2.1 hindex.2.2, ?_, ?_⟩
    · show a.attestationId ∈ (dir.log.index a).primary
      exact hindex.1 ▸ hsound
    · exact Directory.Change.of_others (fun _ h => hindex.1 ▸ h) hindex.2.1 hindex.2.2 rfl rfl
        fun _ h => h
  | returned => cases hstep
  | cutOff => cases hstep

/-! ## Every call -/

/-- **What a call relies on survives the steps of others.** -/
theorem Phase.Sound.frame {actor : Option (CallId × AttestationId)} {call' : CallId}
    {id : AttestationId} {phase : Phase} (hchange : dir.Change actor dir')
    (hne : ∀ own, actor ≠ some (call', own)) (h : phase.Sound legacy dir call' id) :
    phase.Sound legacy dir' call' id := by
  have hkeep : ∀ id ∈ dir.log.arrival, id ∈ dir'.log.arrival := by
    intro id hid
    obtain ⟨n, hn⟩ := isSome_iff_exists.mp (Std.ExtTreeMap.mem_iff_isSome_getElem?.mp hid)
    exact Std.ExtTreeMap.mem_iff_isSome_getElem?.mpr
      (isSome_iff_exists.mpr ⟨n, hchange.arrival id n hn⟩)
  have habove : ∀ next, dir.lock = some call' → dir.Above next → dir'.Above next := by
    intro next hlock h id n hn
    rw [(hchange.others call' hne hlock).2.1] at hn
    exact h id n hn
  have hnot : dir.lock = some call' → id ∉ dir.log.arrival → id ∉ dir'.log.arrival := by
    intro hlock h
    rw [(hchange.others call' hne hlock).2.1]
    exact h
  cases phase with
  | checkPrimary => trivial
  | checkRecord => exact h
  | lockArrival => exact h
  | recheckRecord => exact ⟨h.1, (hchange.others call' hne h.2).1⟩
  | readCounter | scanArrival =>
    obtain ⟨hnew, hlock, hid⟩ := h
    exact ⟨hnew, (hchange.others call' hne hlock).1, hnot hlock hid⟩
  | writeCounterTmp next =>
    obtain ⟨hnew, hlock, hid, hnext⟩ := h
    exact ⟨hnew, (hchange.others call' hne hlock).1, hnot hlock hid, habove next hlock hnext⟩
  | renameCounter next =>
    obtain ⟨hnew, hlock, hid, hnext, htmp⟩ := h
    obtain ⟨hlock', -, -, htmp', -⟩ := hchange.others call' hne hlock
    exact ⟨hnew, hlock', hnot hlock hid, habove next hlock hnext, htmp'.trans htmp⟩
  | writeRecordTmp next =>
    obtain ⟨hnew, hlock, hid, hnext, hcounted⟩ := h
    obtain ⟨hlock', -, hcounter, -, -⟩ := hchange.others call' hne hlock
    exact ⟨hnew, hlock', hnot hlock hid, habove next hlock hnext,
      fun last hlast => hcounted last (hcounter last hlast)⟩
  | renameRecord next =>
    obtain ⟨hnew, hlock, hid, hnext, hcounted, htmp⟩ := h
    obtain ⟨hlock', -, hcounter, -, htmp'⟩ := hchange.others call' hne hlock
    exact ⟨hnew, hlock', hnot hlock hid, habove next hlock hnext,
      fun last hlast => hcounted last (hcounter last hlast), htmp'.symm ▸ htmp⟩
  | unlockArrival => exact ⟨(hchange.others call' hne h.1).1, hkeep id h.2⟩
  | writePrimaryTmp => exact hkeep id h
  | renamePrimary => exact hkeep id h
  | writeIndex => exact hchange.primary id h
  | returned => exact hchange.primary id h
  | cutOff => trivial

/-- **What holds at every point of a run**: of the files, of each call, and that each stamp is of a
put that began. -/
structure State.Sound (legacy : AttestationId → Prop) (s : State) : Prop where
  ordered : s.dir.Ordered legacy
  calls : ∀ call c, s.calls call = some c →
    c.phase.Sound legacy s.dir call c.attestation.attestationId
  begun : ∀ id ∈ s.dir.log.arrival, ∃ call c, s.calls call = some c ∧ c.attestation.attestationId = id

/-- **What a run changes**: what there is stays, and a new stamp is above those there were. -/
structure State.Grows (s s' : State) : Prop where
  primary : ∀ id ∈ s.dir.log.primary, id ∈ s'.dir.log.primary
  arrival : ∀ (id : AttestationId) (n : Nat), s.dir.log.arrival[id]? = some n →
    s'.dir.log.arrival[id]? = some n
  stamps : ∀ (id : AttestationId) (n : Nat), s'.dir.log.arrival[id]? = some n →
    s.dir.log.arrival[id]? = some n ∨ s.dir.Above n

namespace State

variable {s s' s'' : State}

theorem Grows.refl (s : State) : Grows s s := ⟨fun _ h => h, fun _ _ h => h, fun _ _ h => .inl h⟩

theorem Grows.trans (h : Grows s s') (h' : Grows s' s'') : Grows s s'' where
  primary := fun id hid => h'.primary id (h.primary id hid)
  arrival := fun id n hn => h'.arrival id n (h.arrival id n hn)
  stamps := fun id n hn => by
    rcases h'.stamps id n hn with hold | habove
    · exact h.stamps id n hold
    · exact .inr fun id' n' hn' => habove id' n' (h.arrival id' n' hn')

theorem Grows.of_change {actor : Option (CallId × AttestationId)} (h : s.dir.Change actor s'.dir) : Grows s s' where
  primary := h.primary
  arrival := h.arrival
  stamps := fun id n hn => (h.stamps id n hn).imp_right And.left

/-- One call that moves on leaves what holds of the others. -/
theorem Sound.set {a : Attestation} {phase : Phase} (h : s.Sound legacy)
    (hordered : dir.Ordered legacy) (hchange : s.dir.Change (some (call, a.attestationId)) dir)
    (hsound : phase.Sound legacy dir call a.attestationId) (hsame : ∀ c, s.calls call = some c → c.attestation = a) :
    (s.set call ⟨a, phase⟩ dir).Sound legacy where
  ordered := hordered
  calls := by
    intro call' c hc
    by_cases hcall : call' = call
    · subst hcall
      rw [State.set_calls_self] at hc
      obtain rfl := some.inj hc
      exact hsound
    · rw [State.set_calls_of_ne s hcall] at hc
      refine (h.calls call' c hc).frame hchange fun own heq => hcall ?_
      exact (Prod.mk.inj (some.inj heq)).1.symm
  begun := by
    intro id hid
    obtain ⟨n, hn⟩ := isSome_iff_exists.mp (Std.ExtTreeMap.mem_iff_isSome_getElem?.mp hid)
    rcases hchange.stamps id n hn with hold | ⟨-, call', hactor⟩
    · have hin : id ∈ s.dir.log.arrival := by
        rw [Std.ExtTreeMap.mem_iff_isSome_getElem?, hold]
        rfl
      obtain ⟨call', c, hc, hcid⟩ := h.begun id hin
      by_cases hcall : call' = call
      · subst hcall
        refine ⟨call', ⟨a, phase⟩, s.set_calls_self call' _ _, ?_⟩
        rw [← hcid, hsame c hc]
      · exact ⟨call', c, (s.set_calls_of_ne hcall _ _).trans hc, hcid⟩
    · obtain ⟨-, rfl⟩ := Prod.mk.inj (some.inj hactor)
      exact ⟨call, ⟨a, phase⟩, s.set_calls_self call _ _, rfl⟩

/-- **One step of a run.** -/
theorem Sound.step (h : s.Sound legacy) (hstep : Step s s') : s'.Sound legacy ∧ Grows s s' := by
  cases hstep with
  | begin call a hnone =>
    have hchange := Directory.Change.refl (some (call, a.attestationId)) s.dir
    refine ⟨h.set h.ordered hchange trivial fun c hc => ?_, Grows.of_change hchange⟩
    rw [hnone] at hc
    cases hc
  | @advance call a phase phase' dir hcall hadvance =>
    obtain ⟨hordered, hsound, hchange⟩ := step_sound h.ordered (h.calls call _ hcall) hadvance
    refine ⟨h.set hordered hchange hsound fun c hc => ?_, Grows.of_change hchange⟩
    obtain rfl := some.inj (hcall.symm.trans hc)
    rfl
  | @cutOff call a phase hcall =>
    have hchange := s.dir.release_spec call a.attestationId
    have hlog := s.dir.release_log call
    have hordered : (s.dir.release call).Ordered legacy :=
      h.ordered.congr (by rw [hlog]) (by rw [hlog]) (by rw [hlog])
    refine ⟨h.set hordered hchange trivial fun c hc => ?_, Grows.of_change hchange⟩
    obtain rfl := some.inj (hcall.symm.trans hc)
    rfl
  | loseCounter =>
    have hchange : s.dir.Change none
        { s.dir with log := { s.dir.log with counter := none } } :=
      ⟨fun _ h => h, fun _ _ h => h, fun _ _ h => .inl h,
        fun _ _ h => ⟨h, rfl, fun _ h => (nomatch h), rfl, rfl⟩⟩
    refine ⟨⟨⟨h.ordered.distinct, fun _ h => (nomatch h), h.ordered.stamped, h.ordered.kept,
      h.ordered.unstamped⟩, fun call c hc => ?_, h.begun⟩, Grows.of_change hchange⟩
    exact (h.calls call c hc).frame hchange fun own heq => nomatch heq

/-- **Every run.** -/
theorem Sound.run (h : s.Sound legacy) (hrun : Reaches s s') : s'.Sound legacy ∧ Grows s s' := by
  induction hrun with
  | refl => exact ⟨h, Grows.refl s⟩
  | tail _ hstep ih =>
    obtain ⟨hsound, hgrows⟩ := ih
    obtain ⟨hsound', hgrows'⟩ := hsound.step hstep
    exact ⟨hsound', hgrows.trans hgrows'⟩

/-- A log from before there were stamps is sound: what it holds is legacy. -/
theorem sound_legacy (primary primaryTmp : Std.ExtTreeMap AttestationId Attestation)
    (byStage : List (Vcs.StageId × AttestationId)) :
    (State.legacy primary primaryTmp byStage).Sound fun id => id ∈ primary where
  ordered :=
    { distinct := by
        intro id id' n h
        simp [State.legacy] at h
      counted := fun last h => nomatch h
      stamped := fun id h => .inl h
      kept := fun id h => h
      unstamped := fun id _ => not_mem_empty }
  calls := fun call c h => nomatch h
  begun := fun id h => absurd h not_mem_empty

end State

/-! ## The order -/

/-- A put that was not begun at one point of a run sorts after what had returned there. -/
theorem State.Sound.before {s s' : State} (h : s.Sound legacy) (hrun : Reaches s s')
    {a b : Attestation} (hreturned : s.calls call = some ⟨a, .returned⟩)
    (habsent : b.attestationId ∉ s.dir.log.primary)
    (hunbegun : ∀ call c, s.calls call = some c → c.attestation.attestationId ≠ b.attestationId)
    (hput : b.attestationId ∈ s'.dir.log.primary) : s'.dir.log.Before a b := by
  obtain ⟨hsound', hgrows⟩ := h.run hrun
  -- `b` is stamped by a put that began later
  have hstamped : b.attestationId ∈ s'.dir.log.arrival := by
    rcases hsound'.ordered.stamped _ hput with hlegacy | hin
    · exact absurd (h.ordered.kept _ hlegacy) habsent
    · exact hin
  have hunstamped : b.attestationId ∉ s.dir.log.arrival := by
    intro hin
    obtain ⟨call', c, hc, hid⟩ := h.begun _ hin
    exact hunbegun call' c hc hid
  have hpresent : a.attestationId ∈ s.dir.log.primary := h.calls call _ hreturned
  rcases h.ordered.stamped _ hpresent with hlegacy | hin
  · exact AttestationLog.before_of_unstamped (hsound'.ordered.unstamped _ hlegacy) hstamped
  · obtain ⟨m, hm⟩ := isSome_iff_exists.mp (Std.ExtTreeMap.mem_iff_isSome_getElem?.mp hin)
    obtain ⟨n, hn⟩ :=
      isSome_iff_exists.mp (Std.ExtTreeMap.mem_iff_isSome_getElem?.mp hstamped)
    rcases hgrows.stamps _ n hn with hold | habove
    · rw [Std.ExtTreeMap.getElem?_eq_none hunstamped] at hold
      cases hold
    · exact AttestationLog.before_of_stamps (hgrows.arrival _ m hm) hn (habove _ m hm)

/-- **Arrival stamps order attestations across processes and crashes.** From a log with legacy entries,
at every point of every interleaving of puts: no two ids have one stamp; a stamp stays; what a put
created has one, what is legacy has none and stays; what was put before another was begun sorts before
it; and the order is total, with what is legacy before what is stamped. -/
theorem arrival_orders {primary primaryTmp : Std.ExtTreeMap AttestationId Attestation}
    {byStage : List (Vcs.StageId × AttestationId)} {s s' : State}
    (hbegun : Reaches (State.legacy primary primaryTmp byStage) s) (hrun : Reaches s s') :
    (∀ (id id' : AttestationId) (n : Nat), s'.dir.log.arrival[id]? = some n →
      s'.dir.log.arrival[id']? = some n → id = id') ∧
    (∀ (id : AttestationId) (n : Nat), s.dir.log.arrival[id]? = some n → s'.dir.log.arrival[id]? = some n) ∧
    (∀ id ∈ s'.dir.log.primary, id ∈ primary ∨ id ∈ s'.dir.log.arrival) ∧
    (∀ id ∈ primary, id ∈ s'.dir.log.primary ∧ id ∉ s'.dir.log.arrival) ∧
    (∀ call a b, s.calls call = some ⟨a, .returned⟩ → b.attestationId ∉ s.dir.log.primary →
      (∀ call c, s.calls call = some c → c.attestation.attestationId ≠ b.attestationId) →
      b.attestationId ∈ s'.dir.log.primary → s'.dir.log.Before a b) ∧
    (∀ a b, (s'.dir.log.arrivalLe a b || s'.dir.log.arrivalLe b a) = true) ∧
    (∀ a b c, s'.dir.log.arrivalLe a b = true → s'.dir.log.arrivalLe b c = true → s'.dir.log.arrivalLe a c = true) ∧
    (∀ a b, s'.dir.log.arrivalLe a b = true → s'.dir.log.arrivalLe b a = true → a.attestationId = b.attestationId) ∧
    (∀ a b, a.attestationId ∈ primary → b.attestationId ∈ s'.dir.log.arrival → s'.dir.log.Before a b) := by
  obtain ⟨hsound, -⟩ := (State.sound_legacy primary primaryTmp byStage).run hbegun
  obtain ⟨hsound', hgrows⟩ := hsound.run hrun
  have hordered := hsound'.ordered
  refine ⟨hordered.distinct, hgrows.arrival, hordered.stamped, ?_, ?_, ?_, ?_, ?_, ?_⟩
  · exact fun id hid => ⟨hordered.kept id hid, hordered.unstamped id hid⟩
  · intro call a b hreturned habsent hunbegun hput
    exact hsound.before hrun hreturned habsent hunbegun hput
  · exact s'.dir.log.arrivalLe_total
  · exact s'.dir.log.arrivalLe_trans
  · exact fun a b => AttestationLog.arrivalLe_antisymm
  · exact fun a b ha hb => AttestationLog.before_of_unstamped (hordered.unstamped _ ha) hb

/-- A review, to be put. -/
def reviewed (id : AttestationId) : Attestation :=
  ⟨id, ⟨"stage", none, none, .review "alice" .approve none, .passed, ⟨"lex", "1", none⟩⟩, 1⟩

/-- One put that returns, and another after it: the first sorts before the second. -/
theorem arrival_orders_two_puts : ∃ s s' : State, Reaches (State.legacy ∅ ∅ []) s ∧ Reaches s s' ∧
      s'.dir.log.Before (reviewed "x") (reviewed "y") := by
  let start := State.legacy ∅ ∅ []
  let first := start.set 0 ⟨reviewed "x", .returned⟩
    (Directory.quiet (start.dir.log.put (reviewed "x")) ∅)
  let second := first.set 1 ⟨reviewed "y", .returned⟩
    (Directory.quiet (first.dir.log.put (reviewed "y")) ∅)
  have hfirst : Reaches start first := reaches_put (reviewed "x") rfl rfl
  have hsecond : Reaches first second := reaches_put (reviewed "y") rfl rfl
  refine ⟨first, second, hfirst, hsecond, ?_⟩
  have hprimary : first.dir.log.primary =
      (∅ : Std.ExtTreeMap AttestationId Attestation).insert "x" (reviewed "x") := by
    simp [first, start, State.set, Directory.quiet, State.legacy, AttestationLog.put,
      AttestationLog.persist, AttestationLog.index, AttestationLog.stampArrival, reviewed]
  apply (arrival_orders hfirst hsecond).2.2.2.2.1 0 (reviewed "x") (reviewed "y") rfl
  · rw [hprimary]
    simp [reviewed]
  · intro call c hc
    by_cases hcall : call = 0
    · subst hcall
      obtain rfl := some.inj hc
      simp [reviewed]
    · rw [State.set_calls_of_ne _ hcall] at hc
      cases hc
  · exact (State.Sound.run ((State.sound_legacy ∅ ∅ []).run hfirst).1 hsecond).1.calls 1 _ rfl

end LexLang.Attest
