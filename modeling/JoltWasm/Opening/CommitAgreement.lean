import JoltWasm.Opening.RowCommitments

/-!
# Commit and open agree

The streamed rows, whatever the windows of a delivery, and the rows of the materialized tables are those of the
polynomials that the opening prepares.
-/

namespace JoltWasm

open Finset Lib DoryScheme BatchedColumns

/-! ## Rows of the trace -/

theorem witnessRow_collect {rows : List CommittedColumnsWitness} {cycle : ℕ} (inside : cycle < rows.length) :
    (OpeningColumns.collect rows).witnessRow cycle = rowOf rows cycle := by
  have row : rowOf rows cycle = rows.get ⟨cycle, inside⟩ := List.getD_eq_getElem _ _ inside
  have column {α : Type} (f : CommittedColumnsWitness → α) (d : α) :
      (rows.map f).getD cycle d = f (rows.get ⟨cycle, inside⟩) := by
    rw [List.getD_eq_getElem _ _ (by rwa [List.length_map]), List.getElem_map]
    rfl
  rw [row]
  rcases is : rows.get ⟨cycle, inside⟩ with ⟨rdInc, ramInc, lookupIndex, bytecodePc, ⟨value, live⟩⟩
  simp only [OpeningColumns.witnessRow, OpeningColumns.collect, column, is]
  congr 2
  cases value with
  | none => exact if_neg (lt_irrefl _)
  | some address => exact if_pos (live address rfl)

theorem windowRows_eq {rows : List CommittedColumnsWitness} {start stop : ℕ} (inside : stop ≤ rows.length) :
    windowRows rows (start, stop) = (List.range (stop - start)).map fun c => rowOf rows (start + c) := by
  refine List.ext_getElem (by simp [windowRows]; omega) fun c below below' => ?_
  have small : c < stop - start := by simpa using below'
  simp only [windowRows, List.getElem_take, List.getElem_drop, List.getElem_map, List.getElem_range]
  exact (List.getD_eq_getElem _ _ (by omega)).symm

/-! ## Deliveries of whole windows -/

/-- Deliveries one after the other, from a window to another one, each of an allowed number of windows. -/
inductive Delivers (w : ℕ) (allowed : ℕ → Prop) : ℕ → List (ℕ × ℕ) → ℕ → Prop
  | done (n : ℕ) : Delivers w allowed n [] n
  | more {n k m : ℕ} {rest : List (ℕ × ℕ)} (fits : allowed k) (later : Delivers w allowed (n + k) rest m) :
      Delivers w allowed n ((n * w, (n + k) * w) :: rest) m

namespace Delivers

variable {w : ℕ} {allowed : ℕ → Prop}

theorem le {n m : ℕ} {deliveries : List (ℕ × ℕ)} (chain : Delivers w allowed n deliveries m) : n ≤ m := by
  induction chain with
  | done n => exact le_rfl
  | more _ _ ih => omega

theorem snoc {n m k : ℕ} {deliveries : List (ℕ × ℕ)} (chain : Delivers w allowed n deliveries m) (fits : allowed k) :
    Delivers w allowed n (deliveries ++ [(m * w, (m + k) * w)]) (m + k) := by
  induction chain with
  | done n => exact .more fits (.done _)
  | more first _ ih => exact .more first ih

/-- A pass with windows of a whole number of rows delivers all of them. -/
theorem passWindows {N q : ℕ} (positive : 0 < q) (some : 0 < w) (each : ∀ k, 0 < k → k ≤ q → allowed k) :
    Delivers w allowed 0 (JoltWasm.passWindows (N * w) (q * w)) N := by
  have step : 0 < q * w := Nat.mul_pos positive some
  have whole := Nat.div_add_mod (N * w + q * w - 1) (q * w)
  have rest := Nat.mod_lt (N * w + q * w - 1) step
  have upTo : ∀ c, (c = 0 ∨ (c - 1) * q < N) → Delivers w allowed 0
      ((List.range c).map fun k => (k * (q * w), min (k * (q * w) + q * w) (N * w))) (min (c * q) N) := by
    intro c
    induction c with
    | zero =>
      intro _
      rw [Nat.zero_mul, Nat.zero_min]
      exact .done 0
    | succ c ih =>
      intro before
      have inside : c * q < N := by simpa using before
      have earlier := ih (by
        rcases c with _ | c
        · exact .inl rfl
        · exact .inr ((Nat.mul_le_mul_right q (Nat.le_succ _)).trans_lt inside))
      rw [Nat.min_eq_left inside.le] at earlier
      have stop : min ((c + 1) * q) N = c * q + min q (N - c * q) := by
        rw [Nat.succ_mul]
        omega
      have window : (c * (q * w), min (c * (q * w) + q * w) (N * w)) =
          (c * q * w, (c * q + min q (N - c * q)) * w) := by
        rw [← stop, ← Nat.mul_assoc, ← Nat.add_mul, ← Nat.succ_mul, Nat.mul_min_mul_right]
      rw [List.range_succ, List.map_append, List.map_singleton, window, stop]
      exact earlier.snoc (each _ (by omega) (Nat.min_le_left _ _))
  rw [JoltWasm.passWindows]
  generalize (N * w + q * w - 1) / (q * w) = c at whole
  have enough : N ≤ c * q := by
    refine Nat.le_of_mul_le_mul_right (c := w) ?_ some
    rw [Nat.mul_assoc, Nat.mul_comm c]
    omega
  have before : c = 0 ∨ (c - 1) * q < N := by
    cases c with
    | zero => exact .inl rfl
    | succ c =>
      refine .inr (Nat.lt_of_mul_lt_mul_right (a := w) ?_)
      rw [Nat.add_sub_cancel, Nat.mul_assoc, Nat.mul_comm c]
      rw [Nat.mul_succ] at whole
      omega
  have last := upTo c before
  rwa [Nat.min_eq_right enough] at last

/-- The pipelined pass delivers all windows too. -/
theorem pipelinedWindows {N q fuel n : ℕ} (positive : 0 < q) (some : 0 < w) (each : ∀ k, 0 < k → k ≤ q → allowed k)
    (below : n ≤ N) (enough : N ≤ n + fuel) :
    Delivers w allowed n (JoltWasm.pipelinedWindows (w * q) (N * w) fuel (n * w)) N := by
  induction fuel generalizing n with
  | zero =>
    obtain rfl : n = N := by omega
    exact .done n
  | succ fuel ih =>
    have next : min (n * w + w * q) (N * w) = (n + min q (N - n)) * w := by
      rw [Nat.mul_comm w, ← Nat.add_mul, Nat.mul_min_mul_right]
      congr 1
      omega
    rw [JoltWasm.pipelinedWindows]
    simp only [next]
    by_cases more : n < N
    · rw [if_pos (Nat.mul_lt_mul_of_pos_right (by omega) some)]
      exact .more (each _ (by omega) (Nat.min_le_left _ _)) (ih (by omega) (by omega))
    · obtain rfl : n = N := by omega
      rw [if_neg (by rw [Nat.sub_self, Nat.min_zero, Nat.add_zero]; exact lt_irrefl _)]
      exact .done n

/-- What one delivery does to the state, a run of them does. -/
theorem foldlM {S ε : Type} {step : S → ℕ × ℕ → Except ε S} {n m : ℕ} {deliveries : List (ℕ × ℕ)}
    (state : ℕ → S) (chain : Delivers w allowed n deliveries m)
    (each : ∀ n k, allowed k → n + k ≤ m → step (state n) (n * w, (n + k) * w) = .ok (state (n + k))) :
    deliveries.foldlM step (state n) = .ok (state m) := by
  induction chain with
  | done n => rfl
  | more fits later ih =>
    rw [List.foldlM_cons, each _ _ fits later.le]
    exact ih each

end Delivers

/-! ## Streamed columns -/

section

variable {M : Type} [AddCommGroup M] {setup : DoryProverSetup M} {rows : List CommittedColumnsWitness} {w : ℕ}

/-- The commitment of a window of an increment. -/
def incrementRow (bases : List M) (rows : List CommittedColumnsWitness) (w : ℕ) (kind : ColumnKind) (window : ℕ) : M :=
  ∑ c ∈ range w, kind.increment (rowOf rows (window * w + c)) • bases.getD c 0

/-- The commitment of a window at one address. -/
def hotRow (bases : List M) (rows : List CommittedColumnsWitness) (w : ℕ) (kind : ColumnKind) (window address : ℕ) : M :=
  ∑ c ∈ range w, if kind.hotAddress (rowOf rows (window * w + c)) = some address then bases.getD c 0 else 0

variable (setup rows w) in
/-- The state of a column after some windows. -/
def columnAfter (oneHotK windows : ℕ) (kind : ColumnKind) : ColumnCommitState M :=
  if kind.isOneHot then .oneHot kind (setup.g1Vec.take w) ((List.range windows).map fun window =>
    (List.range oneHotK).map (hotRow setup.g1Vec rows w kind window))
  else .increment kind ((List.range windows).map (incrementRow setup.g1Vec rows w kind))

theorem columnAfter_oneHot {kind : ColumnKind} (oneHot : kind.isOneHot = true) (oneHotK windows : ℕ) :
    columnAfter setup rows w oneHotK windows kind = .oneHot kind (setup.g1Vec.take w) ((List.range windows).map
      fun window => (List.range oneHotK).map (hotRow setup.g1Vec rows w kind window)) := if_pos oneHot

theorem columnAfter_increment {kind : ColumnKind} (dense : kind.isOneHot = false) (oneHotK windows : ℕ) :
    columnAfter setup rows w oneHotK windows kind =
      .increment kind ((List.range windows).map (incrementRow setup.g1Vec rows w kind)) :=
  if_neg (by rw [dense]; decide)

theorem getD_take (bases : List M) {c : ℕ} (inside : c < w) : (bases.take w).getD c 0 = bases.getD c 0 := by
  rw [List.getD_eq_getElem?_getD, List.getD_eq_getElem?_getD, List.getElem?_take_of_lt inside]

theorem msmI128_range (bases : List M) (value : ℕ → ℤ) :
    msmI128 (bases.take w) ((List.range w).map value) = ∑ c ∈ range w, value c • bases.getD c 0 := by
  have zip : List.zipWith (fun (scalar : ℤ) base => scalar • base) ((List.range w).map value) (bases.take w) =
      (List.range (min w bases.length)).map fun c => value c • bases.getD c 0 := by
    refine List.ext_getElem (by simp) fun c below below' => ?_
    have small : c < min w bases.length := by simpa using below'
    have inside : c < bases.length := small.trans_le (Nat.min_le_right _ _)
    rw [List.getElem_zipWith, List.getElem_map, List.getElem_range, List.getElem_take, List.getElem_map,
      List.getElem_range, List.getD_eq_getElem _ _ inside]
  rw [msmI128, zip]
  change ∑ c ∈ range (min w bases.length), value c • bases.getD c 0 = _
  refine sum_columns (Nat.min_le_left _ _) (fun _ _ => rfl) fun c past column => ?_
  rw [List.getD_eq_default _ _ (by omega), smul_zero]

omit [AddCommGroup M] in
/-- Pushing every column to its address leaves each address with its columns, in order. -/
theorem foldl_hotRows (entries : List (Option ℕ × ℕ)) (oneHotK : ℕ) (start : ℕ → List ℕ) :
    entries.foldl (fun indices entry => match entry.1 with
        | some hotRow => indices.modify hotRow (· ++ [entry.2])
        | none => indices) ((List.range oneHotK).map start) =
      (List.range oneHotK).map fun address => start address ++
        entries.filterMap fun entry => if entry.1 = some address then some entry.2 else none := by
  induction entries generalizing start with
  | nil => simp
  | cons entry entries ih =>
    obtain ⟨hot, column⟩ := entry
    rw [List.foldl_cons]
    cases hot with
    | none =>
      rw [ih]
      exact List.map_congr_left fun address _ => by simp
    | some hot =>
      have one : ((List.range oneHotK).map start).modify hot (· ++ [column]) =
          (List.range oneHotK).map fun address => if hot = address then start address ++ [column] else start address := by
        refine List.ext_getElem (by simp) fun address below below' => ?_
        rw [List.getElem_modify, List.getElem_map, List.getElem_map, List.getElem_range]
      simp only [one]
      rw [ih]
      refine List.map_congr_left fun address _ => ?_
      by_cases here : hot = address
      · rw [if_pos here, List.append_assoc, List.singleton_append]
        simp [here]
      · rw [if_neg here]
        simp [here]

theorem sum_filterMap (columns : List ℕ) (p : ℕ → Prop) [DecidablePred p] (f : ℕ → M) :
    ((columns.filterMap fun c => if p c then some c else none).map f).sum =
      (columns.map fun c => if p c then f c else 0).sum := by
  induction columns with
  | nil => rfl
  | cons c columns ih =>
    rw [List.map_cons, List.sum_cons, ← ih]
    by_cases here : p c
    · simp [here]
    · simp [here]

/-- A chunk of hot addresses below their bound. -/
theorem oneHotChunk_ok {oneHotK : ℕ} (some_ : oneHotK ≠ 0) (power : w.isPowerOfTwo) (small : w ≤ setup.g1Vec.length)
    {hot : ℕ → Option ℕ} (narrow : ∀ c < w, ∀ address, hot c = some address → address < oneHotK) :
    oneHotChunkCommitments setup (setup.g1Vec.take w) oneHotK ((List.range w).map hot) =
      .ok ((List.range oneHotK).map fun address =>
        ∑ c ∈ range w, if hot c = some address then setup.g1Vec.getD c 0 else 0) := by
  have length : ((List.range w).map hot).length = w := by rw [List.length_map, List.length_range]
  have below : ∀ address ∈ ((List.range w).map hot).reduceOption, address < oneHotK := by
    intro address member
    obtain ⟨c, inside, is⟩ := List.mem_map.mp (List.reduceOption_mem_iff.mp member)
    exact narrow c (List.mem_range.mp inside) address is
  have columns : ((List.range w).map hot).zipIdx = (List.range w).map fun c => (hot c, c) := by
    refine List.ext_getElem (by simp) fun c _ _ => ?_
    simp
  have start : List.replicate oneHotK ([] : List ℕ) = (List.range oneHotK).map fun _ => [] := by
    rw [List.map_const', List.length_range]
  rw [oneHotChunkCommitments, length, assertWidth_ok power small]
  simp only [asserted]
  rw [if_pos some_, if_pos (by rw [List.length_take, Nat.min_eq_left small]), if_pos below, start]
  refine congrArg Except.ok ((congrArg (List.map _) (foldl_hotRows _ oneHotK fun _ => [])).trans ?_)
  rw [List.map_map, columns]
  refine List.map_congr_left fun address _ => ?_
  rw [Function.comp_apply, List.nil_append, List.filterMap_map]
  refine (sum_filterMap (List.range w) (fun c => hot c = some address) _).trans ?_
  change ∑ c ∈ range w, (if hot c = some address then (setup.g1Vec.take w).getD c 0 else 0) = _
  exact sum_congr rfl fun c inside => by rw [getD_take _ (mem_range.mp inside)]

/-! ### One delivery -/

/-- What the windows of a pass need. -/
structure Streams (setup : DoryProverSetup M) (rows : List CommittedColumnsWitness) (w oneHotK : ℕ)
    (kinds : List ColumnKind) : Prop where
  power : w.isPowerOfTwo
  small : w ≤ setup.g1Vec.length
  positive : oneHotK ≠ 0
  narrow : ∀ kind ∈ kinds, ∀ row address, kind.hotAddress row = some address → address < oneHotK

variable {oneHotK : ℕ} {kinds : List ColumnKind}

theorem range_windows {α : Type} (f : ℕ → α) (n k : ℕ) :
    (List.range n).map f ++ (List.range k).map (fun j => f (n + j)) = (List.range (n + k)).map f := by
  rw [List.range_add, List.map_append, List.map_map]
  rfl

/-- A window of the rows, column by column. -/
theorem map_windowRows {α : Type} (f : CommittedColumnsWitness → α) {n k : ℕ} (inside : (n + k) * w ≤ rows.length) :
    (windowRows rows (n * w, (n + k) * w)).map f = (List.range (k * w)).map fun c => f (rowOf rows (n * w + c)) := by
  rw [windowRows_eq inside, List.map_map, Nat.add_mul, Nat.add_sub_cancel_left]
  rfl

/-- The reference pass takes one window. -/
theorem FusedColumns.consume_window (streams : Streams setup rows w oneHotK kinds) {n : ℕ}
    (inside : (n + 1) * w ≤ rows.length) :
    FusedColumns.consume setup oneHotK (kinds.map (columnAfter setup rows w oneHotK n))
        (windowRows rows (n * w, (n + 1) * w)) =
      .ok (kinds.map (columnAfter setup rows w oneHotK (n + 1))) := by
  rw [consume, List.mapM_map]
  refine mapM_ok fun kind member => ?_
  rw [Function.comp_apply]
  cases oneHot : kind.isOneHot with
  | true =>
    have chunk : oneHotChunkCommitments setup (setup.g1Vec.take w) oneHotK
        ((windowRows rows (n * w, (n + 1) * w)).map fun row => kind.hotAddress row) =
          .ok ((List.range oneHotK).map (hotRow setup.g1Vec rows w kind n)) := by
      rw [map_windowRows _ inside, Nat.one_mul]
      exact oneHotChunk_ok streams.positive streams.power streams.small fun c _ address is =>
        streams.narrow kind member _ address is
    rw [columnAfter_oneHot oneHot, columnAfter_oneHot oneHot, List.range_succ, List.map_append, List.map_singleton]
    simp only [chunk]
    rfl
  | false =>
    have chunk (before : List M) : feedI128 setup before ((windowRows rows (n * w, (n + 1) * w)).map fun row =>
        kind.increment row) = .ok (before ++ [incrementRow setup.g1Vec rows w kind n]) := by
      rw [map_windowRows (fun row => kind.increment row) inside, Nat.one_mul, feedI128, List.length_map,
        List.length_range, assertWidth_ok streams.power streams.small, msmI128_range]
      rfl
    rw [columnAfter_increment oneHot, columnAfter_increment oneHot, List.range_succ, List.map_append, List.map_singleton]
    simp only [chunk]
    rfl

/-- The optimized pass takes any number of windows. -/
theorem BatchedColumns.consume_windows (streams : Streams setup rows w oneHotK kinds) {n k : ℕ}
    (inside : (n + k) * w ≤ rows.length) :
    BatchedColumns.consume setup oneHotK w (kinds.map (columnAfter setup rows w oneHotK n))
        (windowRows rows (n * w, (n + k) * w)) =
      .ok (kinds.map (columnAfter setup rows w oneHotK (n + k))) := by
  have positive : 0 < w := by
    obtain ⟨exponent, is⟩ := streams.power
    rw [is]
    exact Nat.two_pow_pos exponent
  have length : (windowRows rows (n * w, (n + k) * w)).length = k * w := by
    rw [← List.length_map id, map_windowRows id inside, List.length_map, List.length_range]
  -- the rows of the delivery, from its start
  have row {index : ℕ} (below : index < k * w) :
      rowOf (windowRows rows (n * w, (n + k) * w)) index = rowOf rows (n * w + index) := by
    have ids := map_windowRows id inside
    rw [List.map_id] at ids
    rw [rowOf, ids, List.getD_eq_getElem _ _ (by rwa [List.length_map, List.length_range]), List.getElem_map,
      List.getElem_range]
    rfl
  have place {window c : ℕ} (windowInside : window < k) (column : c < w) :
      window * w + c < k * w ∧ n * w + (window * w + c) = (n + window) * w + c := by
    refine ⟨?_, by rw [Nat.add_mul, Nat.add_assoc]⟩
    calc window * w + c < window * w + w := by omega
      _ = (window + 1) * w := (Nat.succ_mul _ _).symm
      _ ≤ k * w := Nat.mul_le_mul_right _ windowInside
  rw [consume, List.mapM_map]
  refine mapM_ok fun kind member => ?_
  rw [Function.comp_apply]
  cases oneHot : kind.isOneHot with
  | true =>
    have chunks : processOneHotChunksWith setup (setup.g1Vec.take w) oneHotK
        (fun index => kind.hotAddress (rowOf (windowRows rows (n * w, (n + k) * w)) index))
        (windowRows rows (n * w, (n + k) * w)).length w = .ok ((List.range k).map fun window =>
          (List.range oneHotK).map (hotRow setup.g1Vec rows w kind (n + window))) := by
      have count : (k * w + w - 1) / w = k := by
        rw [Nat.add_sub_assoc positive, Nat.mul_comm, Nat.mul_add_div positive, Nat.div_eq_of_lt (by omega), Nat.add_zero]
      rw [processOneHotChunksWith, asserted, if_pos positive.ne', length, count]
      refine mapM_ok fun window windowMember => ?_
      have windowInside := List.mem_range.mp windowMember
      have stop : min (window * w + w) (k * w) - window * w = w := by
        rw [← Nat.succ_mul, Nat.min_eq_left (Nat.mul_le_mul_right _ windowInside), Nat.succ_mul, Nat.add_sub_cancel_left]
      simp only [stop]
      rw [oneHotChunk_ok streams.positive streams.power streams.small fun c _ address is =>
        streams.narrow kind member _ address is]
      refine congrArg Except.ok (List.map_congr_left fun address _ => sum_congr rfl fun c column => ?_)
      obtain ⟨below, same⟩ := place windowInside (mem_range.mp column)
      rw [row below, same]
    rw [columnAfter_oneHot oneHot, columnAfter_oneHot oneHot, ← range_windows]
    simp only [chunks]
    rfl
  | false =>
    have chunks (before : List M) : feedI128RowsWith setup before
        (fun index => kind.increment (rowOf (windowRows rows (n * w, (n + k) * w)) index))
        (windowRows rows (n * w, (n + k) * w)).length w = .ok (before ++ (List.range k).map fun window =>
          incrementRow setup.g1Vec rows w kind (n + window)) := by
      rw [feedI128RowsWith, assertWidth_ok streams.power streams.small, length, asserted, if_pos (Nat.dvd_mul_left _ _),
        Nat.mul_div_cancel _ positive]
      refine congrArg (fun later => Except.ok (before ++ later)) (List.map_congr_left fun window windowMember => ?_)
      rw [msmI128_range]
      refine sum_congr rfl fun c column => ?_
      obtain ⟨below, same⟩ := place (List.mem_range.mp windowMember) (mem_range.mp column)
      rw [row below, same]
    rw [columnAfter_increment oneHot, columnAfter_increment oneHot, ← range_windows]
    simp only [chunks]
    rfl

/-! ### Whole passes -/

variable (setup rows w) in
/-- The hint of a column after all windows; the rows of an address follow one another. -/
def streamedHint (oneHotK windows : ℕ) (kind : ColumnKind) : List M :=
  if kind.isOneHot then
    (List.range (oneHotK * windows)).map fun r => hotRow setup.g1Vec rows w kind (r % windows) (r / windows)
  else (List.range windows).map (incrementRow setup.g1Vec rows w kind)

theorem beginColumns_ok (streams : Streams setup rows w oneHotK kinds) :
    beginColumns setup kinds w = .ok (kinds.map (columnAfter setup rows w oneHotK 0)) := by
  refine mapM_ok fun kind _ => ?_
  cases oneHot : kind.isOneHot with
  | true =>
    rw [columnAfter_oneHot oneHot, if_pos rfl, beginOneHotColumnMajorStream, assertWidth_ok streams.power streams.small]
    rfl
  | false =>
    rw [columnAfter_increment oneHot, if_neg (by decide)]
    rfl

omit [AddCommGroup M] in
theorem validateRowCount_ok {count n : ℕ} (is : count = 2 ^ n) (few : count ≤ setup.g2Len) :
    validateRowCount setup count = .ok () := by
  rw [validateRowCount, asserted, asserted, if_pos ⟨n, is⟩, if_pos few]
  rfl

/-- The chunks are transposed. -/
theorem finishColumns_ok {a b : ℕ} (isK : oneHotK = 2 ^ a) (few : oneHotK * 2 ^ b ≤ setup.g2Len) :
    finishColumns setup oneHotK (kinds.map (columnAfter setup rows w oneHotK (2 ^ b))) =
      .ok (kinds.map (streamedHint setup rows w oneHotK (2 ^ b))) := by
  have positive : 0 < oneHotK := isK ▸ Nat.two_pow_pos a
  rw [finishColumns, List.mapM_map]
  refine mapM_ok fun kind _ => ?_
  rw [Function.comp_apply, streamedHint]
  cases oneHot : kind.isOneHot with
  | true =>
    rw [columnAfter_oneHot oneHot, if_pos rfl]
    have transposed : ((List.range oneHotK).flatMap fun row => ((List.range (2 ^ b)).map fun window =>
        (List.range oneHotK).map (hotRow setup.g1Vec rows w kind window)).map fun chunk => chunk.getD row 0) =
        (List.range (oneHotK * 2 ^ b)).map fun r => hotRow setup.g1Vec rows w kind (r % 2 ^ b) (r / 2 ^ b) := by
      rw [range_blocks, List.map_flatMap]
      refine List.flatMap_congr fun address member => ?_
      rw [List.map_map, List.map_map]
      refine List.map_congr_left fun window windowMember => ?_
      have inside := List.mem_range.mp windowMember
      rw [Function.comp_apply, Function.comp_apply, Nat.mul_comm address, Nat.mul_add_mod, Nat.mod_eq_of_lt inside,
        Nat.mul_add_div (Nat.two_pow_pos b), Nat.div_eq_of_lt inside, Nat.add_zero,
        List.getD_eq_getElem _ _ (by rw [List.length_map, List.length_range]; exact List.mem_range.mp member),
        List.getElem_map, List.getElem_range]
    have count : ((List.range (oneHotK * 2 ^ b)).map fun r =>
        hotRow setup.g1Vec rows w kind (r % 2 ^ b) (r / 2 ^ b)).length = oneHotK * 2 ^ b := by
      rw [List.length_map, List.length_range]
    have valid : validateRowCount setup (oneHotK * 2 ^ b) = .ok () :=
      validateRowCount_ok (by rw [isK, pow_add] : oneHotK * 2 ^ b = 2 ^ (a + b)) few
    have chunks : ∀ chunk ∈ (List.range (2 ^ b)).map fun window =>
        (List.range oneHotK).map (hotRow setup.g1Vec rows w kind window), chunk.length = oneHotK := by
      intro chunk member
      obtain ⟨window, -, rfl⟩ := List.mem_map.mp member
      rw [List.length_map, List.length_range]
    have present : ((List.range (2 ^ b)).map fun window =>
        (List.range oneHotK).map (hotRow setup.g1Vec rows w kind window)) ≠ [] := by
      rw [← List.length_pos_iff, List.length_map, List.length_range]
      exact Nat.two_pow_pos b
    change finishOneHotColumnMajorChunks setup oneHotK _ = _
    rw [finishOneHotColumnMajorChunks, asserted, asserted, asserted, if_pos positive.ne', if_pos present, if_pos chunks,
      transposed]
    simp only [count, valid]
    rfl
  | false =>
    rw [columnAfter_increment oneHot, if_neg (by decide)]
    have count : ((List.range (2 ^ b)).map (incrementRow setup.g1Vec rows w kind)).length = 2 ^ b := by
      rw [List.length_map, List.length_range]
    change finishWithHint setup _ = _
    rw [finishWithHint, count, validateRowCount_ok rfl ((Nat.le_mul_of_pos_left _ positive).trans few)]
    rfl

/-- The reference pass, window by window. -/
theorem fused_pass (streams : Streams setup rows w oneHotK kinds) {windows : ℕ} (whole : rows.length = windows * w) :
    (passWindows rows.length w).foldlM (fun columns window =>
        FusedColumns.consume setup oneHotK columns (windowRows rows window))
      (kinds.map (columnAfter setup rows w oneHotK 0)) =
        .ok (kinds.map (columnAfter setup rows w oneHotK windows)) := by
  have positive : 0 < w := by
    obtain ⟨exponent, is⟩ := streams.power
    rw [is]
    exact Nat.two_pow_pos exponent
  have chain : Delivers w (· = 1) 0 (passWindows (windows * w) (1 * w)) windows :=
    Delivers.passWindows one_pos positive fun k _ _ => by omega
  rw [Nat.one_mul, ← whole] at chain
  refine chain.foldlM (fun n => kinds.map (columnAfter setup rows w oneHotK n)) fun n k one inside => ?_
  obtain rfl : k = 1 := one
  exact FusedColumns.consume_window streams (whole ▸ Nat.mul_le_mul_right w inside)

/-- The optimized pass, with superchunks of any number of windows, delivered in one pass or pipelined. -/
theorem batched_pass (streams : Streams setup rows w oneHotK kinds) {windows q : ℕ} (whole : rows.length = windows * w)
    (some_ : 0 < q) (randomAccess : Bool) :
    (if randomAccess then (0, min (w * q) rows.length) ::
          pipelinedWindows (w * q) rows.length rows.length (min (w * q) rows.length)
        else passWindows rows.length (w * q)).foldlM (fun columns window =>
          BatchedColumns.consume setup oneHotK w columns (windowRows rows window))
        (kinds.map (columnAfter setup rows w oneHotK 0)) =
      .ok (kinds.map (columnAfter setup rows w oneHotK windows)) := by
  have positive : 0 < w := by
    obtain ⟨exponent, is⟩ := streams.power
    rw [is]
    exact Nat.two_pow_pos exponent
  have chain : Delivers w (fun _ => True) 0 (if randomAccess then (0, min (w * q) rows.length) ::
      pipelinedWindows (w * q) rows.length rows.length (min (w * q) rows.length)
    else passWindows rows.length (w * q)) windows := by
    cases randomAccess with
    | true =>
      have first : min (w * q) rows.length = (0 + min q windows) * w := by
        rw [whole, Nat.mul_comm w, Nat.mul_min_mul_right, Nat.zero_add]
      have fuel : windows ≤ 0 + min q windows + rows.length :=
        (whole ▸ Nat.le_mul_of_pos_right windows positive).trans (Nat.le_add_left _ _)
      have later : Delivers w (fun _ => True) (0 + min q windows) (pipelinedWindows (w * q) (windows * w) rows.length
          ((0 + min q windows) * w)) windows :=
        Delivers.pipelinedWindows some_ positive (fun _ _ _ => trivial) (by omega) fuel
      rw [if_pos rfl, first]
      have start : (0, (0 + min q windows) * w) = (0 * w, (0 + min q windows) * w) := by rw [Nat.zero_mul]
      rw [start]
      refine .more trivial ?_
      rwa [← whole] at later
    | false =>
      rw [if_neg (by decide), whole, Nat.mul_comm w]
      exact Delivers.passWindows some_ positive fun _ _ _ => trivial
  refine chain.foldlM (fun n => kinds.map (columnAfter setup rows w oneHotK n)) fun n k _ inside => ?_
  exact BatchedColumns.consume_windows streams (whole ▸ Nat.mul_le_mul_right w inside)

end

/-! ## The streamed rows are the rows of the grid -/

section

variable {F M : Type} [Field F] [AddCommGroup M] [Module F M] {setup : DoryProverSetup M}
  {rows : List CommittedColumnsWitness} {grid : CommitmentGrid} {kind : ColumnKind}

/-- The polynomial that the opening prepares for a column. -/
def openingPoly (rows : List CommittedColumnsWitness) (grid : CommitmentGrid) (kind : ColumnKind) : TraceOpeningPoly :=
  ⟨.collect rows, kind, .new grid⟩

theorem streamedHint_commits (placed : (openingPoly rows grid kind).Placed grid) (whole : rows.length = 2 ^ grid.logT)
    (cycleMajor : grid.order = .cycleMajor) (narrow : balancedSigma grid.totalVars ≤ grid.logT) :
    CommitsTable (F := F) setup.g1Vec grid.totalVars (streamedHint setup rows (2 ^ balancedSigma grid.totalVars)
      (2 ^ grid.logKChunk) (2 ^ (grid.logT - balancedSigma grid.totalVars)) kind)
      ((openingPoly rows grid kind).table grid) := by
  generalize windowsIs : 2 ^ (grid.logT - balancedSigma grid.totalVars) = windows
  generalize widthIs : 2 ^ balancedSigma grid.totalVars = w
  have cycles : windows * w = 2 ^ grid.logT := by
    rw [← windowsIs, ← widthIs, ← pow_add, Nat.sub_add_cancel narrow]
  have positive : 0 < windows := windowsIs ▸ Nat.two_pow_pos _
  have height : 2 ^ grid.logKChunk * windows ≤ 2 ^ (grid.totalVars - balancedSigma grid.totalVars) := by
    rw [← windowsIs, ← pow_add]
    exact Nat.pow_le_pow_right two_pos (by have := placed.fits; omega)
  -- an entry of a row lies in a window, at the address of the row
  have entry (r c : ℕ) (column : c < w) : (openingPoly rows grid kind).table (F := F) grid (r * w + c) =
      (openingPoly rows grid kind).matrixEntry (r % windows * w + c) (r / windows) ∧
        (openingPoly rows grid kind).columns.witnessRow (r % windows * w + c) =
          rowOf rows (r % windows * w + c) := by
    have inside : r % windows * w + c < 2 ^ grid.logT := by
      calc r % windows * w + c < (r % windows + 1) * w := by rw [Nat.succ_mul]; omega
        _ ≤ windows * w := Nat.mul_le_mul_right w (Nat.mod_lt r positive)
        _ = 2 ^ grid.logT := cycles
    have split : r * w + c = 2 ^ grid.logT * (r / windows) + (r % windows * w + c) := by
      conv_lhs => rw [← Nat.div_add_mod r windows]
      rw [← cycles]
      ring
    refine ⟨?_, witnessRow_collect (whole ▸ inside)⟩
    rw [TraceOpeningPoly.table, cycleMajor, split]
    dsimp only
    rw [Nat.mul_add_mod, Nat.mod_eq_of_lt inside, Nat.mul_add_div (Nat.two_pow_pos _), Nat.div_eq_of_lt inside,
      Nat.add_zero]
  have matrixRow (r c : ℕ) (column : c < w) (base : M) :
      (openingPoly rows grid kind).table (F := F) grid (r * w + c) • base =
        if kind.isOneHot then
          if kind.hotAddress (rowOf rows (r % windows * w + c)) = some (r / windows) then base else 0
        else if r / windows = 0 then kind.increment (rowOf rows (r % windows * w + c)) • base else 0 := by
    obtain ⟨is, row⟩ := entry r c column
    have value : (openingPoly rows grid kind).matrixEntry (F := F) (r % windows * w + c) (r / windows) =
        if kind.isOneHot then if kind.hotAddress (rowOf rows (r % windows * w + c)) = some (r / windows) then 1 else 0
        else if r / windows = 0 then (kind.increment (rowOf rows (r % windows * w + c)) : F) else 0 := by
      rw [TraceOpeningPoly.matrixEntry, row]
      rfl
    rw [is, value]
    simp only [ite_smul, one_smul, zero_smul, Int.cast_smul_eq_zsmul]
  refine ⟨?_, fun r inside => ?_⟩
  · rw [streamedHint]
    split_ifs
    · rw [List.length_map, List.length_range]
      exact height
    · rw [List.length_map, List.length_range]
      exact (Nat.le_mul_of_pos_left _ (Nat.two_pow_pos _)).trans height
  · rw [widthIs, sum_congr rfl fun c member => matrixRow r c (mem_range.mp member) _, streamedHint]
    cases oneHot : kind.isOneHot with
    | true =>
      simp only [if_true]
      rcases Nat.lt_or_ge r (2 ^ grid.logKChunk * windows) with present | past
      · rw [List.getD_eq_getElem _ _ (by rwa [List.length_map, List.length_range]), List.getElem_map, List.getElem_range,
          hotRow]
      · -- addresses past the last are never hot
        rw [List.getD_eq_default _ _ (by rwa [List.length_map, List.length_range])]
        refine (sum_eq_zero fun c member => if_neg fun hot => ?_).symm
        have row := (entry r c (mem_range.mp member)).2
        have small := placed.narrow _ _ (row ▸ hot)
        exact absurd ((Nat.le_div_iff_mul_le positive).mpr past) (Nat.not_le.mpr small)
    | false =>
      simp only [Bool.false_eq_true, if_false]
      rcases Nat.lt_or_ge r windows with present | past
      · rw [List.getD_eq_getElem _ _ (by rwa [List.length_map, List.length_range]), List.getElem_map, List.getElem_range,
          incrementRow, Nat.mod_eq_of_lt present, Nat.div_eq_of_lt present]
        simp only [if_true]
      · rw [List.getD_eq_default _ _ (by rwa [List.length_map, List.length_range])]
        exact (sum_eq_zero fun c _ => if_neg (Nat.div_pos past positive).ne').symm

/-! ## Materialized tables -/

/-- What a cycle sets in the table of a column, zeros too. -/
def columnEntry (F : Type) [Field F] (rows : List CommittedColumnsWitness) (grid : CommitmentGrid) (kind : ColumnKind)
    (cycle : ℕ) : Option (ℕ × F) :=
  if kind.isOneHot then
    (kind.hotAddress (rowOf rows cycle)).map fun address => ((TracePlacement.new grid).index cycle address, 1)
  else some ((TracePlacement.new grid).index cycle 0, (kind.increment (rowOf rows cycle) : F))

/-- The pass over the windows is a pass over the cycles. -/
theorem passWindows_rows (w : ℕ) (some_ : 0 < w) : ((passWindows rows.length w).flatMap fun window =>
    windowRows rows window) = (List.range rows.length).map (rowOf rows) := by
  have enough : rows.length ≤ (rows.length + w - 1) / w * w := by
    have whole := Nat.div_add_mod (rows.length + w - 1) w
    have rest := Nat.mod_lt (rows.length + w - 1) some_
    rw [Nat.mul_comm]
    omega
  rw [← Plan.range_chunks w _ _ enough, passWindows, List.flatMap_map, List.map_flatMap]
  refine List.flatMap_congr fun k _ => ?_
  rw [windowRows_eq (Nat.min_le_right _ _), List.range'_eq_map_range, List.map_map]
  rfl

namespace MaterializedColumn

variable (F) in
theorem consumeRow_start (grid : CommitmentGrid) (kind : ColumnKind) (table : List F) (cycle : ℕ) :
    consumeRow { start F kind grid with table := table, cycle := cycle } (rowOf rows cycle) =
      { start F kind grid with
        table := match columnEntry F rows grid kind cycle with
          | some e => table.set (e.1 - 0) e.2
          | none => table
        cycle := cycle + 1 } := by
  have kindIs : (start F kind grid).kind = kind := rfl
  rw [consumeRow, columnEntry]
  simp only [kindIs, Nat.sub_zero]
  cases oneHot : kind.isOneHot with
  | true =>
    simp only [if_true]
    cases kind.hotAddress (rowOf rows cycle) with
    | none => rfl
    | some address =>
      cases order : grid.order with
      | cycleMajor =>
        simp only [start, order, oneHot, if_true, TracePlacement.new, TracePlacement.index, Option.map_some, Nat.mul_one,
          Nat.add_comm cycle]
      | addressMajor => simp only [start, order, TracePlacement.new, TracePlacement.index, Option.map_some]
  | false =>
    simp only [Bool.false_eq_true, if_false]
    cases order : grid.order with
    | cycleMajor =>
      simp only [start, order, TracePlacement.new, TracePlacement.index, Nat.zero_mul, Nat.add_zero]
    | addressMajor =>
      simp only [start, order, TracePlacement.new, TracePlacement.index, Nat.zero_mul, Nat.add_zero]

/-- Each cycle sets its entry. -/
theorem consumeRow_upTo (n : ℕ) : ((List.range n).map (rowOf rows)).foldl consumeRow (start F kind grid) =
    { start F kind grid with
      table := ((List.range n).filterMap (columnEntry F rows grid kind)).foldl (fun table e => table.set (e.1 - 0) e.2)
        (start F kind grid).table
      cycle := n } := by
  induction n with
  | zero => rfl
  | succ n ih =>
    rw [List.range_succ, List.map_append, List.foldl_append, ih, List.filterMap_append, List.foldl_append,
      List.map_singleton, List.foldl_cons, List.foldl_nil, consumeRow_start]
    cases is : columnEntry F rows grid kind n with
    | none => rw [List.filterMap_cons_none is, List.filterMap_nil, List.foldl_nil]
    | some e => rw [List.filterMap_cons_some is, List.filterMap_nil, List.foldl_cons, List.foldl_nil]

/-- The number of variables of a table. -/
def tableVars (grid : CommitmentGrid) (kind : ColumnKind) : ℕ :=
  match grid.order with
  | .cycleMajor => if kind.isOneHot then grid.logT + grid.logKChunk else grid.logT
  | .addressMajor => grid.totalVars

theorem start_table : (start F kind grid).table = List.replicate (2 ^ tableVars grid kind) 0 := by
  rw [start, tableVars]
  cases grid.order with
  | addressMajor => simp only [Nat.one_shiftLeft]
  | cycleMajor =>
    split_ifs with oneHot
    · simp only [Nat.shiftLeft_eq, one_mul, pow_add, Nat.mul_comm]
    · simp only [Nat.one_shiftLeft]

/-- An entry lies in the table, at a place that tells its cycle. -/
theorem columnEntry_spec (placed : (openingPoly rows grid kind).Placed grid) (whole : rows.length = 2 ^ grid.logT)
    {cycle : ℕ} (inside : cycle < rows.length) {e : ℕ × F} (is : columnEntry F rows grid kind cycle = some e) :
    e.1 < 2 ^ tableVars grid kind ∧ TraceOpeningPoly.cycleOf grid e.1 = cycle := by
  have cycleInside : cycle < 2 ^ grid.logT := whole ▸ inside
  obtain ⟨address, narrow, place, dense⟩ : ∃ address < 2 ^ grid.logKChunk,
      e.1 = (TracePlacement.new grid).index cycle address ∧ (kind.isOneHot = false → address = 0) := by
    rw [columnEntry] at is
    split_ifs at is with oneHot
    · obtain ⟨address, hot, rfl⟩ := Option.map_eq_some_iff.mp is
      have row : kind.hotAddress ((OpeningColumns.collect rows).witnessRow cycle) = some address := by
        rw [witnessRow_collect inside, hot]
      exact ⟨address, placed.narrow cycle address row, rfl, fun dense => absurd oneHot (by rw [dense]; decide)⟩
    · obtain rfl := Option.some.inj is
      exact ⟨0, Nat.two_pow_pos _, rfl, fun _ => rfl⟩
  obtain ⟨below, tells⟩ := TraceOpeningPoly.index_spec placed cycleInside narrow
  rw [place]
  refine ⟨?_, tells⟩
  rw [tableVars]
  cases order : grid.order with
  | addressMajor => exact below
  | cycleMajor =>
    have index : (TracePlacement.new grid).index cycle address = cycle + address * 2 ^ grid.logT := by
      simp only [TracePlacement.new, order, TracePlacement.index, Nat.mul_one, Nat.one_shiftLeft]
    rw [index]
    cases oneHot : kind.isOneHot with
    | false =>
      rw [dense oneHot, Nat.zero_mul, Nat.add_zero]
      exact cycleInside
    | true =>
      calc cycle + address * 2 ^ grid.logT < (address + 1) * 2 ^ grid.logT := by rw [Nat.succ_mul]; omega
        _ ≤ 2 ^ grid.logKChunk * 2 ^ grid.logT := Nat.mul_le_mul_right _ narrow
        _ = 2 ^ (grid.logT + grid.logKChunk) := by rw [← pow_add, Nat.add_comm]

/-- The entries with the zeros add up to those without. -/
theorem hits_columnEntry (rows : List CommittedColumnsWitness) (grid : CommitmentGrid) (kind : ColumnKind) (place : ℕ) :
    hits ((List.range rows.length).filterMap (columnEntry F rows grid kind)) place =
      hits ((openingPoly rows grid kind).entries F) place := by
  have cycles : (openingPoly rows grid kind).columns.cycles = rows.length := List.length_map _
  rw [TraceOpeningPoly.entries, cycles, hits_filterMap, hits_filterMap]
  refine congrArg List.sum (List.map_congr_left fun cycle member => ?_)
  have row : (openingPoly rows grid kind).columns.witnessRow cycle = rowOf rows cycle :=
    witnessRow_collect (List.mem_range.mp member)
  rw [columnEntry, TraceOpeningPoly.entry, row]
  cases oneHot : kind.isOneHot with
  | true =>
    have same : (openingPoly rows grid kind).kind.isOneHot = true := oneHot
    simp only [same, if_true]
    rfl
  | false =>
    have same : (openingPoly rows grid kind).kind.isOneHot = false := oneHot
    have increment : (openingPoly rows grid kind).kind.increment (rowOf rows cycle) =
        kind.increment (rowOf rows cycle) := rfl
    simp only [same, increment, Bool.false_eq_true, if_false]
    by_cases zero : kind.increment (rowOf rows cycle) = 0
    · rw [if_pos zero, zero, Int.cast_zero, Option.map_some, Option.getD_some, ite_self, Option.map_none,
        Option.getD_none]
    · rw [if_neg zero]
      rfl

/-- The table of a column is that of the polynomial that the opening prepares. -/
theorem getD_table (placed : (openingPoly rows grid kind).Placed grid) (whole : rows.length = 2 ^ grid.logT)
    {place : ℕ} (below : place < 2 ^ grid.totalVars) :
    (((List.range rows.length).filterMap (columnEntry F rows grid kind)).foldl (fun table e => table.set (e.1 - 0) e.2)
      (start F kind grid).table).getD place 0 = (openingPoly rows grid kind).table grid place := by
  have zero (k : ℕ) : (start F kind grid).table.getD k 0 = 0 := by
    rw [start_table]
    rcases Nat.lt_or_ge k (2 ^ tableVars grid kind) with inside | outside
    · exact List.getD_replicate _ inside
    · exact List.getD_eq_default _ _ (by rwa [List.length_replicate])
  have tells : ∀ cycle < rows.length, ∀ e, columnEntry F rows grid kind cycle = some e →
      TraceOpeningPoly.cycleOf grid e.1 = cycle := fun cycle inside e is => (columnEntry_spec placed whole inside is).2
  have within : ∀ e ∈ (List.range rows.length).filterMap (columnEntry F rows grid kind),
      0 ≤ e.1 ∧ e.1 - 0 < (start F kind grid).table.length := by
    intro e member
    obtain ⟨cycle, inside, is⟩ := List.mem_filterMap.mp member
    rw [start_table, List.length_replicate]
    exact ⟨Nat.zero_le _, (columnEntry_spec placed whole (List.mem_range.mp inside) is).1⟩
  rw [getD_foldl_set (nodup_range _ tells) within fun _ _ => zero _, zero, zero_add, Nat.zero_add, hits_columnEntry,
    TraceOpeningPoly.hits_entries placed below]

theorem commit_ok (placed : (openingPoly rows grid kind).Placed grid) (whole : rows.length = 2 ^ grid.logT)
    (enough : setup.Covers grid.totalVars) : ∃ hint, commit F setup rows grid kind = .ok hint ∧
      CommitsTable (F := F) setup.g1Vec grid.totalVars hint ((openingPoly rows grid kind).table grid) := by
  have width : grid.numColumns = 2 ^ balancedSigma grid.totalVars := Nat.one_shiftLeft _
  obtain ⟨table, is⟩ : ∃ table, ((List.range rows.length).filterMap (columnEntry F rows grid kind)).foldl
      (fun table e => table.set (e.1 - 0) e.2) (start F kind grid).table = table := ⟨_, rfl⟩
  have filled : ((passWindows (1 <<< grid.logT) grid.numColumns).foldl
      (fun column window => column.consume (windowRows rows window)) (start F kind grid)).table = table := by
    have flat : (passWindows (1 <<< grid.logT) grid.numColumns).foldl
        (fun column window => column.consume (windowRows rows window)) (start F kind grid) =
        ((List.range rows.length).map (rowOf rows)).foldl consumeRow (start F kind grid) := by
      rw [Nat.one_shiftLeft, ← whole, ← passWindows_rows grid.numColumns (width ▸ Nat.two_pow_pos _), List.foldl_flatMap]
      rfl
    rw [flat, consumeRow_upTo]
    exact is
  have length : table.length = 2 ^ tableVars grid kind := by
    have kept (entries : List (ℕ × F)) (buffer : List F) :
        (entries.foldl (fun table e => table.set (e.1 - 0) e.2) buffer).length = buffer.length := by
      induction entries generalizing buffer with
      | nil => rfl
      | cons e entries ih => rw [List.foldl_cons, ih, List.length_set]
    rw [← is, kept, start_table, List.length_replicate]
  have fits : tableVars grid kind ≤ grid.totalVars := by
    have := placed.fits
    rw [tableVars]
    split
    · split_ifs <;> omega
    · exact le_rfl
  obtain ⟨fed, finished⟩ := feed_table length fits enough
  refine ⟨_, ?_, (commitsTable_of_rows length fits setup.g1Vec).congr fun place below => ?_⟩
  · rw [commit, filled, width, fed]
    exact finished
  · rw [← is]
    exact getD_table placed whole below

end MaterializedColumn

/-! ## The commit pass -/

/-- The hint of a column, in whichever mode it is committed. -/
def columnHint (F : Type) {M : Type} [Field F] [AddCommGroup M] [Module F M] (setup : DoryProverSetup M)
    (rows : List CommittedColumnsWitness) (grid : CommitmentGrid) (kind : ColumnKind) : List M :=
  if grid.order = .cycleMajor ∧ grid.numColumns ≤ 1 <<< grid.logT then
    streamedHint setup rows (2 ^ balancedSigma grid.totalVars) (2 ^ grid.logKChunk)
      (2 ^ (grid.logT - balancedSigma grid.totalVars)) kind
  else match MaterializedColumn.commit F setup rows grid kind with
    | .ok hint => hint
    | .error _ => []

theorem columnHint_commits (placed : (openingPoly rows grid kind).Placed grid) (whole : rows.length = 2 ^ grid.logT)
    (enough : setup.Covers grid.totalVars) : CommitsTable (F := F) setup.g1Vec grid.totalVars
      (columnHint F setup rows grid kind) ((openingPoly rows grid kind).table grid) := by
  rw [columnHint]
  split_ifs with streamed
  · have narrow : balancedSigma grid.totalVars ≤ grid.logT := by
      have small := streamed.2
      rw [CommitmentGrid.numColumns, Nat.one_shiftLeft, Nat.one_shiftLeft] at small
      exact (Nat.pow_le_pow_iff_right one_lt_two).mp small
    exact streamedHint_commits placed whole streamed.1 narrow
  · obtain ⟨hint, is, commits⟩ := MaterializedColumn.commit_ok (F := F) placed whole enough
    rw [is]
    exact commits

variable {ids : List JoltCommittedPolynomial} {kinds : List ColumnKind}

/-- What the columns of a pass need of the trace and of the setup. -/
structure Commitable (setup : DoryProverSetup M) (rows : List CommittedColumnsWitness) (grid : CommitmentGrid)
    (kinds : List ColumnKind) : Prop where
  whole : rows.length = 2 ^ grid.logT
  fits : grid.logT + grid.logKChunk ≤ grid.totalVars
  enough : setup.Covers grid.totalVars
  narrow : ∀ kind ∈ kinds, ∀ row address, kind.hotAddress row = some address → address < 2 ^ grid.logKChunk

namespace Commitable

omit [AddCommGroup M] in
theorem placed (columns : Commitable setup rows grid kinds) (member : kind ∈ kinds) :
    (openingPoly rows grid kind).Placed grid :=
  ⟨rfl, columns.fits, (List.length_map _).trans columns.whole,
    fun _ address hot => columns.narrow kind member _ address hot⟩

omit [AddCommGroup M] in
/-- The streamed passes are those of narrow enough grids. -/
theorem streams (columns : Commitable setup rows grid kinds)
    (streamed : grid.order = .cycleMajor ∧ grid.numColumns ≤ 1 <<< grid.logT) :
    Streams setup rows grid.numColumns (1 <<< grid.logKChunk) kinds ∧
      grid.numColumns = 2 ^ balancedSigma grid.totalVars ∧
      rows.length = 2 ^ (grid.logT - balancedSigma grid.totalVars) * grid.numColumns ∧
      1 <<< grid.logKChunk * 2 ^ (grid.logT - balancedSigma grid.totalVars) ≤ setup.g2Len := by
  have width : grid.numColumns = 2 ^ balancedSigma grid.totalVars := Nat.one_shiftLeft _
  have narrow : balancedSigma grid.totalVars ≤ grid.logT := by
    have small := streamed.2
    rw [width, Nat.one_shiftLeft] at small
    exact (Nat.pow_le_pow_iff_right one_lt_two).mp small
  have chunks : 1 <<< grid.logKChunk = 2 ^ grid.logKChunk := Nat.one_shiftLeft _
  refine ⟨⟨⟨_, width⟩, width ▸ columns.enough.columns, chunks ▸ (Nat.two_pow_pos _).ne', chunks ▸ columns.narrow⟩,
    width, ?_, ?_⟩
  · rw [columns.whole, width, ← pow_add, Nat.sub_add_cancel narrow]
  · rw [chunks, ← pow_add]
    have fits := columns.fits
    exact (Nat.pow_le_pow_right two_pos (by omega)).trans columns.enough.rows

end Commitable

/-- The reference pass commits every column to its hint. -/
theorem referenceCommitWitness_ok (resolved : columnKinds ids grid = .ok kinds)
    (columns : Commitable setup rows grid kinds) :
    referenceCommitWitness F setup rows ids grid = .ok (ids.zip (kinds.map (columnHint F setup rows grid))) := by
  rw [referenceCommitWitness, resolved]
  simp only [CommitStop.lift]
  change (if grid.order = .cycleMajor ∧ grid.numColumns ≤ 1 <<< grid.logT then _ else _) = _
  by_cases streamed : grid.order = .cycleMajor ∧ grid.numColumns ≤ 1 <<< grid.logT
  · obtain ⟨streams, width, windows, height⟩ := columns.streams streamed
    have cycles : 1 <<< grid.logT = rows.length := (Nat.one_shiftLeft _).trans columns.whole.symm
    have hints : kinds.map (columnHint F setup rows grid) = kinds.map (streamedHint setup rows grid.numColumns
        (1 <<< grid.logKChunk) (2 ^ (grid.logT - balancedSigma grid.totalVars))) := by
      refine List.map_congr_left fun kind _ => ?_
      rw [columnHint, if_pos streamed, width, Nat.one_shiftLeft]
    rw [if_pos streamed, beginColumns_ok streams, cycles]
    change ((passWindows rows.length grid.numColumns).foldlM (fun columns window => FusedColumns.consume setup
      (1 <<< grid.logKChunk) columns (windowRows rows window)) _ >>= fun columns => _) = _
    rw [fused_pass streams windows]
    change (finishColumns setup (1 <<< grid.logKChunk) _ >>= fun hints => pure (ids.zip hints)) = _
    rw [finishColumns_ok (Nat.one_shiftLeft _) height, hints]
    rfl
  · rw [if_neg streamed]
    have hints : kinds.mapM (MaterializedColumn.commit F setup rows grid) =
        .ok (kinds.map (columnHint F setup rows grid)) := by
      refine mapM_ok fun kind member => ?_
      obtain ⟨hint, is, -⟩ := MaterializedColumn.commit_ok (F := F) (columns.placed member) columns.whole columns.enough
      rw [columnHint, if_neg streamed, is]
    rw [hints]
    rfl

/-- The optimized pass commits every column to the same hint. -/
theorem optimizedCommitWitness_ok (resolved : columnKinds ids grid = .ok kinds)
    (columns : Commitable setup rows grid kinds) (superchunkCycles : ℕ) (randomAccess : Bool) :
    optimizedCommitWitness F setup rows ids grid superchunkCycles randomAccess =
      .ok (ids.zip (kinds.map (columnHint F setup rows grid))) := by
  rw [optimizedCommitWitness]
  by_cases materialized : grid.order ≠ .cycleMajor ∨ 1 <<< grid.logT < grid.numColumns
  · rw [if_pos materialized, referenceCommitWitness_ok resolved columns]
  · rw [if_neg materialized]
    rw [not_or, not_not, Nat.not_lt] at materialized
    obtain ⟨streams, width, windows, height⟩ := columns.streams materialized
    have cycles : 1 <<< grid.logT = rows.length := (Nat.one_shiftLeft _).trans columns.whole.symm
    have hints : kinds.map (columnHint F setup rows grid) = kinds.map (streamedHint setup rows grid.numColumns
        (1 <<< grid.logKChunk) (2 ^ (grid.logT - balancedSigma grid.totalVars))) := by
      refine List.map_congr_left fun kind _ => ?_
      rw [columnHint, if_pos materialized, width, Nat.one_shiftLeft]
    rw [commitStreaming, resolved, cycles]
    simp only [CommitStop.lift]
    change (beginColumns setup kinds grid.numColumns >>= fun columns => _) = _
    rw [beginColumns_ok streams]
    have pass := batched_pass streams windows
      (lt_max_of_lt_left one_pos : 0 < max 1 (min (superchunkCycles / grid.numColumns) (rows.length / grid.numColumns)))
      randomAccess
    change (List.foldlM (fun columns window => BatchedColumns.consume setup (1 <<< grid.logKChunk) grid.numColumns columns
      (windowRows rows window)) _ _ >>= fun columns => _) = _
    rw [pass]
    change (finishColumns setup (1 <<< grid.logKChunk) _ >>= fun hints => pure (ids.zip hints)) = _
    rw [finishColumns_ok (Nat.one_shiftLeft _) height, hints]
    rfl

/-! ## The prepared polynomials -/

/-- A column is resolved by the counts of its families, so that the order of the ids is irrelevant. -/
theorem columnKind_perm {ids ids' : List JoltCommittedPolynomial} (perm : ids.Perm ids') (grid : CommitmentGrid)
    (id : JoltCommittedPolynomial) : columnKind ids grid id = columnKind ids' grid id := by
  cases id <;> simp only [columnKind, perm.countP_eq]

/-- A list of results, entry by entry. -/
theorem forall₂_of_mapM_ok {ε α β : Type} {f : α → Except ε β} {items : List α} {results : List β}
    (ran : items.mapM f = .ok results) : List.Forall₂ (fun item result => f item = .ok result) items results := by
  induction items generalizing results with
  | nil =>
    obtain rfl := Except.ok.inj ran
    exact .nil
  | cons item items ih =>
    rw [List.mapM_cons] at ran
    obtain ⟨first, here, ran⟩ := except_bind_eq_ok.mp ran
    obtain ⟨others, later, ran⟩ := except_bind_eq_ok.mp ran
    obtain rfl := Except.ok.inj ran
    exact .cons here (ih later)

theorem exists_of_mapM_ok {ε α β : Type} {f : α → Except ε β} {items : List α} {results : List β}
    (ran : items.mapM f = .ok results) {item : α} (member : item ∈ items) : ∃ result, f item = .ok result := by
  have each := forall₂_of_mapM_ok ran
  obtain ⟨i, inside, rfl⟩ := List.mem_iff_getElem.mp member
  exact ⟨_, each.get inside (each.length_eq ▸ inside)⟩

omit [Field F] in
/-- What a prepared polynomial was made from. -/
theorem prepareOpening_spec {polynomials : List JoltCommittedPolynomial}
    {tables : JoltCommittedPolynomial → Option (List F)} {polys : List (OpeningPoly F)}
    (prepared : prepareOpening rows polynomials tables grid = .ok polys) :
    grid.logT + grid.logKChunk ≤ grid.totalVars ∧
      (∃ kinds, columnKinds (polynomials.filter fun id => !id.isBlockEmbedded) grid = .ok kinds) ∧
      ∀ id poly, (id, poly) ∈ polynomials.zip polys → match poly with
        | .trace poly => id.isBlockEmbedded = false ∧ ∃ kind, poly = openingPoly rows grid kind ∧
            columnKind (polynomials.filter fun id => !id.isBlockEmbedded) grid id = .ok kind
        | .block poly => ∃ table, tables id = some table ∧ BlockOpeningPoly.new table grid id = .ok poly := by
  rw [prepareOpening] at prepared
  by_cases small : grid.totalVars < grid.logT + grid.logKChunk
  · rw [if_pos small] at prepared
    cases prepared
  rw [if_neg small] at prepared
  obtain ⟨kinds, resolved, ran⟩ := except_bind_eq_ok.mp prepared
  refine ⟨Nat.not_lt.mp small, ⟨kinds, resolved⟩, fun id poly member => ?_⟩
  have made := (List.forall₂_iff_zip.mp (forall₂_of_mapM_ok ran)).2 member
  cases embedded : id.isBlockEmbedded with
  | true =>
    rw [if_pos embedded] at made
    cases found : tables id with
    | none =>
      rw [found] at made
      cases made
    | some table =>
      rw [found] at made
      obtain ⟨block, built, is⟩ := except_bind_eq_ok.mp made
      obtain rfl := Except.ok.inj is
      exact ⟨table, rfl, built⟩
  | false =>
    rw [if_neg (by rw [embedded]; decide)] at made
    cases found : (((polynomials.filter fun id => !id.isBlockEmbedded).zip kinds).lookup id) with
    | none =>
      rw [found] at made
      cases made
    | some kind =>
      rw [found] at made
      obtain rfl := Except.ok.inj made
      obtain ⟨before, after, is, -⟩ := List.lookup_eq_some_iff.mp found
      have listed : (id, kind) ∈ (polynomials.filter fun id => !id.isBlockEmbedded).zip kinds := by
        rw [is]
        exact List.mem_append_right _ List.mem_cons_self
      exact ⟨rfl, kind, rfl, (List.forall₂_iff_zip.mp (forall₂_of_mapM_ok resolved)).2 listed⟩

/-! ## Commit and open -/

end

/-- Two cycles and two addresses, as a matrix with two columns. -/
def smallGrid : CommitmentGrid := ⟨2, 1, 1, .cycleMajor⟩

theorem noAccess_live (address : ℕ) (found : none = some address) : address < coldAddress :=
  absurd found.symm (Option.some_ne_none address)

def smallRows : List CommittedColumnsWitness :=
  [⟨3, 0, 1, 0, ⟨none, noAccess_live⟩⟩, ⟨-2, 0, 0, 0, ⟨none, noAccess_live⟩⟩]

def smallSetup : DoryProverSetup ℚ := ⟨[7, 11], 2⟩

def smallTables : JoltCommittedPolynomial → Option (List ℚ)
  | .bytecodeChunk 0 => some [3, 5]
  | _ => none

theorem smallGrid_prepared : prepareOpening smallRows [.bytecodeChunk 0, .instructionRa 0, .rdInc] smallTables smallGrid =
    .ok [.block ⟨[3, 5], 1, 1, 2⟩, .trace (openingPoly smallRows smallGrid (.instructionRa ⟨0, 1⟩)),
      .trace (openingPoly smallRows smallGrid .rdInc)] := by
  rfl

end JoltWasm
