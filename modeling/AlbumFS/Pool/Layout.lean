import AlbumFS.Pool.Geometry
import Mathlib.Algebra.Order.BigOperators.Group.List

/-!
# The plan of a format

What formatting has found out about the carriers of a folder once its plan is made: which carriers it
uses, how many blocks they have room for, and how their ranges lie in the pool.

## Main definitions

* `UsableCarrier`: a carrier that formatting uses.

## Main results

* `planFormat_ok`: what a plan says.
* `FormatPlan.fits`: the payloads of the carriers fit `usize`.
-/

namespace AlbumFS

open CarrierFolder Prog

section Carriers

variable {κ : Type} [CarrierFolder κ] {folder : κ} {encrypted : Bool} {anchor : Option String}
  {names paths : List String} {usable : List (String × String × Nat)}

/-- The capacity that formatting divides into blocks. -/
def room (folder : κ) (encrypted : Bool) (path : String) : Except CodecError Nat :=
  if encrypted then rawCapacity folder path else capacity folder path

/-- A carrier that formatting uses, with its name in the manifest and its number of blocks. -/
structure UsableCarrier (folder : κ) (encrypted : Bool) (anchor : Option String)
    (carrier : String × String × Nat) : Prop where
  not_anchor : anchor ≠ some carrier.1
  room : ∃ available, room folder encrypted carrier.1 = .ok available ∧ carrier.2.2 = available / PB
  pos : 0 < carrier.2.2
  name : carrier.2.1 = if encrypted then carrier.1 else ""
  valid : encrypted = true → Superblock.validateName carrier.1 = .ok ()

/-- Capacities fit `u64`. -/
theorem room_lt {path : String} {available : Nat}
    (hcapacity : ∀ {name n}, rawCapacity folder name = .ok n → n < 2 ^ 64)
    (h : room folder encrypted path = .ok available) : available < 2 ^ 64 := by
  rw [AlbumFS.room] at h
  split_ifs at h
  · exact hcapacity h
  · rw [capacity] at h
    cases hraw : rawCapacity folder path with
    | error e => simp [hraw, Except.map] at h
    | ok n =>
      have hn := hcapacity hraw
      simp only [hraw, Except.map, Except.ok.injEq] at h
      omega

/-- The bytes of the blocks of a carrier do not exceed its capacity. -/
theorem UsableCarrier.mul_lt {carrier : String × String × Nat}
    (hcapacity : ∀ {name n}, rawCapacity folder name = .ok n → n < 2 ^ 64)
    (h : UsableCarrier folder encrypted anchor carrier) :
    (UInt64.ofNat carrier.2.2).toNat * PB < 2 ^ 64 := by
  obtain ⟨available, hroom, hcount⟩ := h.room
  have hlt := room_lt hcapacity hroom
  have hle := Nat.div_mul_le_self available PB
  have hcount' : available / PB < 2 ^ 64 := Nat.lt_of_le_of_lt (Nat.div_le_self _ _) hlt
  rw [hcount, UInt64.toNat_ofNat_of_lt' (by rwa [UInt64.size])]
  omega

/-- The carriers that are used, in order, and why the others are not. -/
theorem usableCarriers_ok (h : usableCarriers folder encrypted anchor names paths = .ok usable) :
    (usable.map (·.1)).Sublist paths ∧
      (∀ carrier ∈ usable, UsableCarrier folder encrypted anchor carrier) ∧
      ∀ path ∈ paths, path ∉ usable.map (·.1) → anchor = some path ∨
        ∃ available, room folder encrypted path = .ok available ∧ available / PB = 0 := by
  induction paths generalizing names usable with
  | nil =>
    obtain rfl := Except.ok.inj h
    exact ⟨List.Sublist.refl _, by simp, by simp⟩
  | cons path paths ih =>
    rw [usableCarriers] at h
    by_cases hanchor : anchor = some path
    · rw [if_pos hanchor] at h
      obtain ⟨hsub, huse, hskip⟩ := ih h
      refine ⟨hsub.cons _, huse, fun other hmem hout => ?_⟩
      rcases List.mem_cons.1 hmem with rfl | hmem
      · exact Or.inl hanchor
      · exact hskip other hmem hout
    rw [if_neg hanchor] at h
    cases hroom : room folder encrypted path with
    | error e =>
      rw [room] at hroom
      simp [hroom, bind, Except.bind, Except.mapError] at h
    | ok available =>
      have hroom' := hroom
      rw [room] at hroom'
      simp only [hroom', bind, Except.bind, Except.mapError] at h
      by_cases hzero : available / PB = 0
      · rw [if_pos hzero] at h
        obtain ⟨hsub, huse, hskip⟩ := ih h
        refine ⟨hsub.cons _, huse, fun other hmem hout => ?_⟩
        rcases List.mem_cons.1 hmem with rfl | hmem
        · exact Or.inr ⟨available, hroom, hzero⟩
        · exact hskip other hmem hout
      rw [if_neg hzero] at h
      -- both branches put the carrier in front of the rest
      have hrest : ∀ names' name rest, usableCarriers folder encrypted anchor names' paths = .ok rest →
          usable = (path, name, available / PB) :: rest → (name = if encrypted then path else "") →
          (encrypted = true → Superblock.validateName path = .ok ()) →
          (usable.map (·.1)).Sublist (path :: paths) ∧
            (∀ carrier ∈ usable, UsableCarrier folder encrypted anchor carrier) ∧
            ∀ other ∈ path :: paths, other ∉ usable.map (·.1) → anchor = some other ∨
              ∃ available, room folder encrypted other = .ok available ∧ available / PB = 0 := by
        rintro names' name rest hrest rfl hname hvalid
        obtain ⟨hsub, huse, hskip⟩ := ih hrest
        refine ⟨hsub.cons_cons _, ?_, fun other hmem hout => ?_⟩
        · rw [List.forall_mem_cons]
          exact ⟨⟨hanchor, ⟨available, hroom, rfl⟩, Nat.pos_of_ne_zero hzero, hname, hvalid⟩, huse⟩
        · rw [List.map_cons, List.mem_cons, not_or] at hout
          exact hskip other (List.mem_of_ne_of_mem hout.1 hmem) hout.2
      by_cases hencrypted : encrypted = true
      · rw [if_pos hencrypted] at h
        cases hvalid : Superblock.validateName path with
        | error e => simp [hvalid] at h
        | ok =>
          simp only [hvalid] at h
          split_ifs at h
          cases hmore : usableCarriers folder encrypted anchor (path :: names) paths with
          | error e => simp [hmore] at h
          | ok rest =>
            simp only [hmore] at h
            exact hrest _ path rest hmore (Except.ok.inj h).symm (by rw [if_pos hencrypted])
              fun _ => hvalid
      · rw [if_neg hencrypted] at h
        cases hmore : usableCarriers folder encrypted anchor names paths with
        | error e => simp [hmore] at h
        | ok rest =>
          simp only [hmore] at h
          exact hrest _ "" rest hmore (Except.ok.inj h).symm (by rw [if_neg hencrypted])
            fun hcontra => absurd hcontra hencrypted

end Carriers

section Manifest

variable {usable : List (String × String × Nat)} {range : CarrierRange} {i j start : Nat}

theorem mem_buildManifest (h : range ∈ buildManifest i start usable) :
    ∃ carrier ∈ usable, range.name = carrier.2.1 ∧
      range.blockCount = UInt64.ofNat carrier.2.2 := by
  induction usable generalizing i start with
  | nil => cases h
  | cons carrier usable ih =>
    obtain ⟨path, name, blockCount⟩ := carrier
    rcases List.mem_cons.1 h with rfl | h
    · exact ⟨_, List.mem_cons_self, rfl, rfl⟩
    · obtain ⟨carrier, hmem, hrange⟩ := ih h
      exact ⟨carrier, List.mem_cons_of_mem _ hmem, hrange⟩

/-- An entry of the manifest. -/
theorem getElem?_buildManifest (h : (buildManifest i start usable)[j]? = some range) :
    ∃ carrier, usable[j]? = some carrier ∧ range.name = carrier.2.1 ∧
      range.chunkIndex = UInt32.ofNat (i + j) ∧ range.blockCount = UInt64.ofNat carrier.2.2 := by
  induction usable generalizing i j start with
  | nil => cases h
  | cons carrier usable ih =>
    obtain ⟨path, name, blockCount⟩ := carrier
    cases j with
    | zero =>
      obtain rfl := Option.some.inj h
      exact ⟨_, rfl, rfl, rfl, rfl⟩
    | succ j =>
      obtain ⟨carrier, hj, hname, hindex, hcount⟩ := ih h
      exact ⟨carrier, hj, hname, by rw [hindex, Nat.add_right_comm, Nat.add_assoc], hcount⟩

theorem map_name_buildManifest (i start : Nat) (usable : List (String × String × Nat)) :
    (buildManifest i start usable).map CarrierRange.name = usable.map (·.2.1) := by
  induction usable generalizing i start with
  | nil => rfl
  | cons carrier usable ih => exact congrArg (carrier.2.1 :: ·) (ih _ _)

/-- The ranges of a manifest pass the check that opening makes. -/
theorem validateRanges_buildManifest (hpos : ∀ carrier ∈ usable, 0 < carrier.2.2)
    (hsum : start + (usable.map (·.2.2)).sum < 2 ^ 64) :
    validateRanges start (buildManifest i start usable) =
      .ok (start + (usable.map (·.2.2)).sum) := by
  induction usable generalizing i start with
  | nil => rfl
  | cons carrier usable ih =>
    obtain ⟨path, name, blockCount⟩ := carrier
    rw [List.forall_mem_cons] at hpos
    simp only [List.map_cons, List.sum_cons] at hsum hpos ⊢
    have hstart : (UInt64.ofNat start).toNat = start :=
      UInt64.toNat_ofNat_of_lt' (by rw [UInt64.size]; omega)
    have hcount : (UInt64.ofNat blockCount).toNat = blockCount :=
      UInt64.toNat_ofNat_of_lt' (by rw [UInt64.size]; omega)
    have hne : UInt64.ofNat blockCount ≠ 0 := by
      rw [← hcount] at hpos
      rintro hzero
      rw [hzero] at hpos
      exact absurd hpos.1 (by decide)
    rw [buildManifest, validateRanges, if_neg (by rw [hstart]; simp [hne])]
    dsimp only
    rw [hcount, checkedAdd_of_lt (by omega)]
    dsimp only
    rw [Nat.mod_eq_of_lt (by omega), ih hpos.2 (by omega), Nat.add_assoc]

/-- The entries of a manifest take at least twenty bytes each. -/
theorem length_manifest_le (sb : Superblock) :
    80 + 20 * sb.manifest.length ≤ sb.encode.length := by
  have hheader := sb.headerLen_ge
  have hentries : ∀ manifest : List CarrierRange,
      20 * manifest.length ≤ (Superblock.entries sb.version manifest).length := by
    intro manifest
    induction manifest with
    | nil => exact Nat.le_refl _
    | cons range manifest ih =>
      rw [Superblock.entries, List.flatMap_cons, List.length_append, List.length_cons]
      rw [Superblock.entries] at ih
      have hentry : 20 ≤ (Superblock.entryBytes sb.version range).length := by
        simp [Superblock.entryBytes]
      omega
  have := hentries sb.manifest
  rw [sb.length_encode]
  omega

theorem length_buildManifest (i start : Nat) (usable : List (String × String × Nat)) :
    (buildManifest i start usable).length = usable.length := by
  induction usable generalizing i start with
  | nil => rfl
  | cons carrier usable ih => exact congrArg (· + 1) (ih _ _)

end Manifest

theorem manifest_layout {totalBlocks : Nat} {manifest : List CarrierRange} {encrypted : Bool}
    {sb : Superblock} (h : layout totalBlocks manifest encrypted = .ok sb) : sb.manifest = manifest := by
  unfold layout at h
  obtain ⟨-, h⟩ := except_ite_ok h
  split_ifs at h <;> obtain rfl := Except.ok.inj h <;> rfl

section Plan

variable {κ : Type} [CarrierFolder κ] {crypto : Crypto} {random : Randomness} {folder : κ}
  {passphrase requested : Option String} {force : Bool} {plan : FormatPlan}

/-- The anchor of a plan, its prefix and the keys, for a pool with that passphrase. -/
def FormatPlan.Secrets (plan : FormatPlan) (crypto : Crypto) (random : Randomness) (folder : κ)
    (requested : Option String) : Option String → Prop
  | none => plan.anchor = none ∧ plan.bootstrap = none ∧ plan.keys = none
  | some passphrase => ∃ anchor bootstrap keys, plan.anchor = some anchor ∧
      plan.bootstrap = some bootstrap ∧ plan.keys = some keys ∧
      selectAnchor folder (carrierPaths folder) requested = .ok anchor ∧
      createBootstrap crypto random.salt random.bootNonce passphrase plan.superblock.encode =
        .ok (bootstrap, keys)

/-- What a plan says. -/
theorem planFormat_ok (h : planFormat crypto random folder passphrase requested force = .ok plan) :
    ∃ usable, usableCarriers folder passphrase.isSome plan.anchor [] (carrierPaths folder) =
        .ok usable ∧ usable ≠ [] ∧
      layout (totalBlocksOf usable) (buildManifest 0 0 usable) passphrase.isSome =
        .ok plan.superblock ∧
      plan.paths = usable.map (·.1) ∧
      plan.Secrets crypto random folder requested passphrase := by
  unfold planFormat at h
  obtain ⟨-, h⟩ := except_ite_ok h
  obtain ⟨-, h⟩ := except_ite_ok h
  obtain ⟨anchor, hanchor, h⟩ := except_bind_ok h
  obtain ⟨-, h⟩ := except_ite_ok h
  obtain ⟨guarded, -, h⟩ := except_bind_ok h
  obtain ⟨-, h⟩ := except_ite_ok h
  obtain ⟨usable, husable, h⟩ := except_bind_ok h
  obtain ⟨hnil, h⟩ := except_ite_ok h
  obtain ⟨sb, hlayout, h⟩ := except_bind_ok h
  cases passphrase with
  | none =>
    obtain rfl := Except.ok.inj h
    obtain rfl := Except.ok.inj hanchor
    exact ⟨usable, husable, hnil, hlayout, rfl, rfl, rfl, rfl⟩
  | some passphrase =>
    obtain ⟨⟨bootstrap, keys⟩, hcreate, h⟩ := except_bind_ok h
    obtain rfl := Except.ok.inj h
    cases hselect : selectAnchor folder (carrierPaths folder) requested with
    | error e => simp [hselect, Except.map] at hanchor
    | ok path =>
      simp only [hselect, Except.map, Except.ok.injEq] at hanchor
      exact ⟨usable, husable, hnil, hlayout, rfl, path, bootstrap, keys, hanchor.symm, rfl, rfl,
        hselect, hcreate⟩

/-- The bytes of every range of a plan fit `usize`, as capacities do. -/
theorem FormatPlan.mul_lt (hcapacity : ∀ {name n}, rawCapacity folder name = .ok n → n < 2 ^ 64)
    (h : planFormat crypto random folder passphrase requested force = .ok plan) :
    ∀ range ∈ plan.superblock.manifest, range.blockCount.toNat * PB < 2 ^ 64 := by
  obtain ⟨usable, husable, -, hlayout, -⟩ := planFormat_ok h
  intro range hrange
  rw [manifest_layout hlayout] at hrange
  obtain ⟨carrier, hmem, -, hcount⟩ := mem_buildManifest hrange
  exact hcount ▸ ((usableCarriers_ok husable).2.1 carrier hmem).mul_lt hcapacity

/-- The number of blocks of a plan whose superblock fits a block does not wrap. -/
theorem sum_usable_lt (hcapacity : ∀ {name n}, rawCapacity folder name = .ok n → n < 2 ^ 64)
    {encrypted : Bool} {anchor : Option String} {usable : List (String × String × Nat)}
    (husable : ∀ carrier ∈ usable, UsableCarrier folder encrypted anchor carrier)
    (hlength : usable.length ≤ 200) : (usable.map (·.2.2)).sum < 2 ^ 60 := by
  have hcount : ∀ count ∈ usable.map (·.2.2), count ≤ 2 ^ 52 := by
    intro count hcount
    obtain ⟨carrier, hmem, rfl⟩ := List.mem_map.1 hcount
    obtain ⟨available, hroom, heq⟩ := (husable carrier hmem).room
    have hlt := room_lt hcapacity hroom
    rw [heq, show PB = 4096 from rfl]
    omega
  have hsum := List.sum_le_card_nsmul _ _ hcount
  rw [List.length_map] at hsum
  change _ ≤ usable.length * 2 ^ 52 at hsum
  omega

end Plan
section LaidOut

variable {κ : Type} [CarrierFolder κ] {crypto : Crypto} {random : Randomness} {folder : κ}
  {passphrase requested : Option String} {force : Bool} {plan : FormatPlan}

/-- A plan whose superblock fits a block: the carriers that it uses, each with its range. -/
structure FormatPlan.LaidOut (plan : FormatPlan) (folder : κ) (encrypted : Bool)
    (usable : List (String × String × Nat)) : Prop where
  carriers : ∀ carrier ∈ usable, UsableCarrier folder encrypted plan.anchor carrier
  listed : (usable.map (·.1)).Sublist (carrierPaths folder)
  distinct : (usable.map (·.1)).Nodup
  skipped : ∀ path ∈ carrierPaths folder, path ∉ usable.map (·.1) → plan.anchor = some path ∨
    ∃ available, room folder encrypted path = .ok available ∧ available / PB = 0
  length_le : usable.length ≤ 200
  manifest : plan.superblock.manifest = buildManifest 0 0 usable
  paths : plan.paths = usable.map (·.1)
  layout : layout plan.superblock.totalBlocks.toNat plan.superblock.manifest encrypted =
    .ok plan.superblock
  valid : validateManifestGeometry plan.superblock = .ok ()

theorem nodup_carrierPaths (hentries : (entries folder).Nodup) : (carrierPaths folder).Nodup :=
  (List.mergeSort_perm _ _).nodup_iff.2 (hentries.filter _)

/-- What a plan says when its superblock fits a block. -/
theorem FormatPlan.laidOut (hfolder : ExactFolder κ)
    (h : planFormat crypto random folder passphrase requested force = .ok plan)
    (hlength : plan.superblock.encode.length ≤ UB) :
    ∃ usable, plan.LaidOut folder passphrase.isSome usable := by
  obtain ⟨usable, husable, -, hlayout, hpaths, -⟩ := planFormat_ok h
  obtain ⟨hlisted, hcarriers, hskipped⟩ := usableCarriers_ok husable
  have hmanifest := manifest_layout hlayout
  have hcount : usable.length ≤ 200 := by
    have hle := length_manifest_le plan.superblock
    rw [hmanifest, length_buildManifest] at hle
    rw [UB_eq] at hlength
    omega
  have hsum := sum_usable_lt hfolder.rawCapacity_lt hcarriers hcount
  have htotal : totalBlocksOf usable = (usable.map (·.2.2)).sum :=
    Nat.mod_eq_of_lt (Nat.lt_trans hsum (by decide))
  rw [htotal] at hlayout
  have hblocks := (layout_eq_ok hlayout (Nat.lt_trans hsum (by decide))).1
  refine ⟨usable, hcarriers, hlisted, hlisted.nodup (nodup_carrierPaths (hfolder.nodup_entries folder)),
    hskipped, hcount, hmanifest, hpaths, ?_, ?_⟩
  · rw [hblocks, hmanifest]
    exact hlayout
  · rw [validateManifestGeometry, hmanifest, validateRanges_buildManifest
      (fun carrier hmem => (hcarriers carrier hmem).pos) (by omega)]
    simp only [bind, Except.bind, Nat.zero_add, hblocks, ne_eq, not_true_eq_false, if_false]

/-- The store of a plan on carriers of which nothing is loaded. -/
def FormatPlan.base (plan : FormatPlan) : BlockStore :=
  .fromManifest (plan.paths.zip (plan.superblock.manifest.map fun range => range.chunkIndex == 0))
    plan.superblock.manifest plan.keys

/-- Formatting fills the payloads of the store of the plan. -/
theorem FormatPlan.loaded_pool (plan : FormatPlan) (random : Randomness) (folder : κ) :
    Loaded (plan.pool crypto random folder) plan.base := by
  rw [FormatPlan.base, ← BlockStore.reopened_newForFormat]
  exact Loaded.newForFormat (plan.pool crypto random folder) _ _ _

namespace FormatPlan.LaidOut

variable {usable : List (String × String × Nat)} {encrypted : Bool}

theorem length_paths (h : plan.LaidOut folder encrypted usable) :
    plan.paths.length = plan.superblock.manifest.length := by
  rw [h.paths, h.manifest, length_buildManifest, List.length_map]

theorem length_zip (h : plan.LaidOut folder encrypted usable) :
    (plan.paths.zip (plan.superblock.manifest.map fun range => range.chunkIndex == 0)).length =
      plan.superblock.manifest.length := by
  rw [List.length_zip, List.length_map, h.length_paths, Nat.min_self]

theorem fst_zip (h : plan.LaidOut folder encrypted usable) :
    (plan.paths.zip (plan.superblock.manifest.map fun range => range.chunkIndex == 0)).map Prod.fst =
      plan.paths :=
  List.map_fst_zip (by rw [List.length_map, h.length_paths])

theorem paths_base (h : plan.LaidOut folder encrypted usable) :
    plan.base.carriers.map CarrierSlot.path = plan.paths := by
  rw [FormatPlan.base, carriers_fromManifest_path h.length_zip, h.fst_zip]

theorem wellformed_base (h : plan.LaidOut folder encrypted usable) : plan.base.Wellformed := by
  refine wellformed_fromManifest h.valid h.length_zip ?_
  rw [h.fst_zip, h.paths]
  exact h.distinct

theorem mul_lt (hfolder : ExactFolder κ) (h : plan.LaidOut folder encrypted usable) :
    ∀ range ∈ plan.superblock.manifest, range.blockCount.toNat * PB < 2 ^ 64 := by
  intro range hrange
  rw [h.manifest] at hrange
  obtain ⟨carrier, hmem, -, hcount⟩ := mem_buildManifest hrange
  exact hcount ▸ (h.carriers carrier hmem).mul_lt hfolder.rawCapacity_lt

theorem fits_base (hfolder : ExactFolder κ) (h : plan.LaidOut folder encrypted usable) :
    plan.base.Fits :=
  fits_fromManifest (h.mul_lt hfolder)

theorem totalBlocks_base (h : plan.LaidOut folder encrypted usable) :
    plan.base.totalBlocks = plan.superblock.totalBlocks :=
  totalBlocks_fromManifest h.valid

theorem length_base (h : plan.LaidOut folder encrypted usable) :
    plan.base.carriers.length = plan.superblock.manifest.length := by
  have hlength := congrArg List.length h.paths_base
  rwa [List.length_map, h.length_paths] at hlength

/-- The slots of a plan: the carriers that it uses, with their ranges. -/
theorem slot_base (h : plan.LaidOut folder encrypted usable) {i : Nat} {slot : CarrierSlot}
    (hi : plan.base.carriers[i]? = some slot) : ∃ carrier range, usable[i]? = some carrier ∧
      plan.superblock.manifest[i]? = some range ∧ range.chunkIndex = UInt32.ofNat i ∧
      range.blockCount = UInt64.ofNat carrier.2.2 ∧
      slot = { path := carrier.1, chunkIndex := range.chunkIndex, isPrimary := range.chunkIndex == 0,
               blockStart := range.blockStart, blockCount := range.blockCount, buffer := none,
               dirty := false } := by
  obtain ⟨path, isPrimary, range, hpath, hrange, rfl⟩ := getElem?_fromManifest.1 hi
  obtain ⟨hpath, hprimary⟩ := List.getElem?_zip_eq_some.1 hpath
  rw [List.getElem?_map, hrange, Option.map_some, Option.some.injEq] at hprimary
  rw [h.paths, List.getElem?_map, Option.map_eq_some_iff] at hpath
  obtain ⟨carrier, hcarrier, rfl⟩ := hpath
  have hentry := hrange
  rw [h.manifest] at hentry
  obtain ⟨carrier', hcarrier', -, hindex, hcount⟩ := getElem?_buildManifest hentry
  obtain rfl := Option.some.inj (hcarrier.symm.trans hcarrier')
  rw [Nat.zero_add] at hindex
  exact ⟨carrier, range, hcarrier, hrange, hindex, hcount, by rw [hprimary]⟩

/-- The buffers of a new pool are its payloads. -/
theorem exists_holds (h : plan.LaidOut folder encrypted usable) :
    ∃ payloads, Holds (plan.pool crypto random folder) plan.base payloads := by
  rw [FormatPlan.base, ← BlockStore.reopened_newForFormat]
  refine Holds.of_loads (plan.pool crypto random folder) fun slot hslot => ?_
  rw [FormatPlan.pool, BlockStore.newForFormat, BlockStore.ofCarriers] at hslot
  obtain ⟨⟨path, range⟩, hzip, rfl⟩ := List.mem_map.1 hslot
  have hpath := (List.of_mem_zip hzip).1
  rw [h.paths] at hpath
  refine ⟨_, ⟨(mem_carrierPaths.1 (h.listed.mem hpath)).2, List.length_replicate, fun hclean => ?_,
    Or.inl rfl⟩⟩
  cases hclean

end FormatPlan.LaidOut

end LaidOut

/-! ### Opening by an anchor -/

section Anchor

variable {κ : Type} [CarrierFolder κ] {crypto : Crypto} {folder : κ} {anchor passphrase : String}
  {seen : List String} {ranges : List CarrierRange} {paths : List (String × Bool)} {sb : Superblock}
  {store : BlockStore}

/-- A range of a manifest that `open_with_anchor` accepts. -/
structure DataRange (folder : κ) (anchor : String) (range : CarrierRange) : Prop where
  valid : Superblock.validateName range.name = .ok ()
  not_anchor : ∃ path anchorPath, canonicalize folder range.name = .ok path ∧
    canonicalize folder anchor = .ok anchorPath ∧ path ≠ anchorPath
  kind : (kindFor range.name).isSome
  mul_lt : range.blockCount.toNat * PB < 2 ^ 64
  room : ∃ available, rawCapacity folder range.name = .ok available ∧
    range.blockCount.toNat * PB ≤ available

/-- The checks of `open_with_anchor` on the manifest. -/
theorem openRanges_iff : openRanges folder anchor seen ranges = .ok paths ↔
    paths = ranges.map (fun range => (range.name, false)) ∧ (ranges.map CarrierRange.name).Nodup ∧
      ∀ range ∈ ranges, range.name ∉ seen ∧ DataRange folder anchor range := by
  induction ranges generalizing seen paths with
  | nil => simp [openRanges, eq_comm]
  | cons range ranges ih =>
    rw [openRanges]
    constructor
    · intro h
      obtain ⟨⟨⟩, hvalid, h⟩ := except_bind_ok h
      obtain ⟨hseen, h⟩ := except_ite_ok h
      obtain ⟨path, hpath, h⟩ := except_bind_ok h
      obtain ⟨anchorPath, hanchor, h⟩ := except_bind_ok h
      obtain ⟨hne, h⟩ := except_ite_ok h
      obtain ⟨hkind, h⟩ := except_ite_ok h
      rw [checkedMul] at h
      split_ifs at h with hmul
      obtain ⟨available, hroom, h⟩ := except_bind_ok h
      obtain ⟨hle, h⟩ := except_ite_ok h
      obtain ⟨rest, hrest, h⟩ := except_bind_ok h
      obtain rfl := Except.ok.inj h
      obtain ⟨rfl, hnodup, hranges⟩ := ih.1 hrest
      refine ⟨rfl, ?_, ?_⟩
      · rw [List.map_cons, List.nodup_cons]
        refine ⟨fun hmem => ?_, hnodup⟩
        obtain ⟨other, hother, hname⟩ := List.mem_map.1 hmem
        exact (hranges other hother).1 (hname ▸ List.mem_cons_self)
      · rw [List.forall_mem_cons]
        refine ⟨⟨hseen, hvalid, ⟨path, anchorPath, except_mapError_ok hpath,
          except_mapError_ok hanchor, hne⟩, ?_, hmul, available, except_mapError_ok hroom,
          Nat.not_lt.1 hle⟩, fun other hother => ?_⟩
        · rw [Option.isSome_iff_ne_none]
          rwa [Option.isNone_iff_eq_none] at hkind
        · exact ⟨fun hmem => (hranges other hother).1 (List.mem_cons_of_mem _ hmem),
            (hranges other hother).2⟩
    · rintro ⟨rfl, hnodup, hranges⟩
      rw [List.forall_mem_cons] at hranges
      obtain ⟨⟨hseen, hrange⟩, hranges⟩ := hranges
      rw [List.map_cons, List.nodup_cons] at hnodup
      obtain ⟨path, anchorPath, hpath, hanchor, hne⟩ := hrange.not_anchor
      obtain ⟨available, hroom, hle⟩ := hrange.room
      have hkind : ¬(kindFor range.name).isNone := by
        rw [Option.isNone_iff_eq_none, ← Ne, ← Option.isSome_iff_ne_none]
        exact hrange.kind
      have hrest : openRanges folder anchor (range.name :: seen) ranges =
          .ok (ranges.map fun range => (range.name, false)) := by
        refine ih.2 ⟨rfl, hnodup.2, fun other hother => ⟨?_, (hranges other hother).2⟩⟩
        rw [List.mem_cons, not_or]
        exact ⟨fun hname => hnodup.1 (hname ▸ List.mem_map_of_mem hother), (hranges other hother).1⟩
      simp only [bind, Except.bind, hrange.valid, if_neg hseen, hpath, hanchor, Except.mapError,
        if_neg hne, if_neg hkind, checkedMul_of_lt hrange.mul_lt, hroom, if_neg (Nat.not_lt.2 hle),
        hrest, List.map_cons]

/-- What `open_with_anchor` accepts, and the store that it returns. -/
theorem openWithAnchor_iff : openWithAnchor crypto folder anchor passphrase = .ok (sb, store) ↔
    ∃ path bootstrap plaintext keys,
      selectAnchor folder (carrierPaths folder) (some anchor) = .ok path ∧
      readPrefix folder path BOOTSTRAP_LEN = .ok bootstrap ∧
      openBootstrap crypto passphrase bootstrap = .ok (plaintext, keys) ∧
      Superblock.decode plaintext.bytes = .ok sb ∧ sb.markerlessEncrypted = true ∧
      (sb.manifest.map CarrierRange.name).Nodup ∧ (∀ range ∈ sb.manifest, DataRange folder path range) ∧
      validateManifestGeometry sb = .ok () ∧
      store = .fromManifest (sb.manifest.map fun range => (range.name, false)) sb.manifest
        (some keys) := by
  rw [openWithAnchor]
  constructor
  · intro h
    obtain ⟨path, hselect, h⟩ := except_bind_ok h
    obtain ⟨bootstrap, hread, h⟩ := except_bind_ok h
    obtain ⟨⟨plaintext, keys⟩, hopen, h⟩ := except_bind_ok h
    obtain ⟨decoded, hdecode, h⟩ := except_bind_ok h
    obtain ⟨hmarkerless, h⟩ := except_ite_ok h
    obtain ⟨paths, hranges, h⟩ := except_bind_ok h
    obtain ⟨⟨⟩, hvalid, h⟩ := except_bind_ok h
    obtain ⟨rfl, rfl⟩ := Prod.mk.inj (Except.ok.inj h)
    obtain ⟨rfl, hnodup, hdata⟩ := openRanges_iff.1 hranges
    exact ⟨path, bootstrap, plaintext, keys, hselect, except_mapError_ok hread, hopen,
      except_mapError_ok hdecode, by simpa using hmarkerless, hnodup,
      fun range hrange => (hdata range hrange).2, hvalid, rfl⟩
  · rintro ⟨path, bootstrap, plaintext, keys, hselect, hread, hopen, hdecode, hmarkerless, hnodup, hdata,
      hvalid, rfl⟩
    have hranges : openRanges folder path [] sb.manifest =
        .ok (sb.manifest.map fun range => (range.name, false)) :=
      openRanges_iff.2 ⟨rfl, hnodup, fun range hrange => ⟨List.not_mem_nil, hdata range hrange⟩⟩
    simp only [bind, Except.bind, hselect, hread, Except.mapError, hopen, hdecode, hmarkerless,
      Bool.not_true, Bool.false_eq_true, if_false, hranges, hvalid]

end Anchor

end AlbumFS
