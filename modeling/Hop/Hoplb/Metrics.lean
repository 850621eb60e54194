import Hop.Lib.SortedVec
import Hop.Lib.Text

/-!
# The metrics of the load balancer

`apps/hoplb/src/metrics.rs`: for each pair of a domain and a backend the requests by status code, the
last latencies in a ring, and a sorted copy of them that is made anew when it is read and has become
old. The series are sorted; beyond `maxSeries` a new pair is counted under `overflowDomain`.
Latencies are `f64`; all that is used of these is in `F64`, and the order is `total_cmp`. Allocations
succeed.
-/

namespace Hop.Hoplb

/-- What is used of floating point numbers. -/
structure F64 (F : Type) where
  zero : F
  add : F → F → F
  /-- `nanos as f64 / 1e9`. -/
  secs : ℕ → F
  /-- `(n as f64 * p) as usize`. -/
  index : ℕ → F → ℕ
  /-- `QUANTILES`: 0.5, 0.9, 0.95, 0.99. -/
  quantiles : List F
  /-- With so many digits behind the point. -/
  fixed : ℕ → F → List Char

/-- `OVERFLOW_DOMAIN`. -/
def overflowDomain : String := "_other"

/-- A series: one domain, one backend. -/
structure Series (F : Type) where
  domain : String
  backend : String
  /-- The requests by status code. -/
  codes : SortedVec (Prod.fst : ℕ × ℕ → ℕ)
  /-- The window, a ring when it is full. -/
  samples : List F
  /-- Where the next latency goes if the window is full. -/
  head : ℕ
  /-- The sum of all latencies. -/
  sum : F
  /-- The window sorted, as long as it is not `dirty`. -/
  sorted : List F
  dirty : Bool

/-- What the series are sorted by. -/
def pairKey (domain backend : String) : Bytes ×ₗ Bytes := toLex (utf8 domain, utf8 backend)

def Series.key {F : Type} (s : Series F) : Bytes ×ₗ Bytes := pairKey s.domain s.backend

/-- The element at a percentile. -/
def atPercentile {F : Type} (ops : F64 F) (sorted : List F) (p : F) : F :=
  let n := sorted.length
  (sorted[min (ops.index (n - 1) p) (n - 1)]?).getD ops.zero

namespace Series

variable {F : Type} (ops : F64 F)

def new (domain backend : String) : Series F where
  domain := domain
  backend := backend
  codes := SortedVec.empty
  samples := []
  head := 0
  sum := ops.zero
  sorted := []
  dirty := false

/-- Counts a code. -/
def count (s : Series F) (code : ℕ) : Series F :=
  match h : s.codes.find code with
  | .ok i => { s with codes := s.codes.modifyAt i (fun p => (p.1, (p.2 + 1) % 2 ^ 64)) fun _ => rfl }
  | .error i => { s with codes := s.codes.insertAt (code, 1) i h }

/-- Puts a latency into the window; the oldest one goes if it is full. -/
def sample (s : Series F) (secs : F) (max : ℕ) : Series F :=
  let s := { s with sum := ops.add s.sum secs, dirty := true }
  if s.samples.length < max then { s with samples := s.samples ++ [secs] }
  else { s with samples := s.samples.set s.head secs, head := (s.head + 1) % Nat.max max 1 }

/-- `sorted`: the sorted copy, made anew if that is needed. -/
def sortedCopy [LinearOrder F] (s : Series F) : List F × Series F :=
  if s.dirty = true ∨ s.sorted.length ≠ s.samples.length then
    let sorted := s.samples.mergeSort (fun a b => decide (a ≤ b))
    (sorted, { s with sorted := sorted, dirty := false })
  else (s.sorted, s)

@[simp] theorem key_count (s : Series F) (code : ℕ) : (s.count code).key = s.key := by
  rw [count]
  split <;> rfl

@[simp] theorem key_sample (s : Series F) (secs : F) (max : ℕ) :
    (s.sample ops secs max).key = s.key := by
  rw [sample]
  dsimp only
  split_ifs
  · rfl
  · rfl

@[simp] theorem key_sortedCopy [LinearOrder F] (s : Series F) : s.sortedCopy.2.key = s.key := by
  rw [sortedCopy]
  split_ifs
  · rfl
  · rfl

end Series

/-- The metrics of a load balancer. -/
structure Metrics (F : Type) where
  series : SortedVec (Series.key (F := F))
  maxSamples : ℕ
  maxSeries : ℕ
  /-- How often a new pair was counted under `overflowDomain`. -/
  folded : ℕ

namespace Metrics

variable {F : Type} (ops : F64 F)

/-- `with_limits`. -/
def withLimits (maxSamples maxSeries : ℕ) : Metrics F :=
  ⟨SortedVec.empty, Nat.max maxSamples 1, maxSeries, 0⟩

def index (m : Metrics F) (domain backend : String) : Except ℕ ℕ :=
  m.series.find (pairKey domain backend)

/-- `Metrics::series`. -/
def seriesOf (m : Metrics F) (domain backend : String) : Option (Series F) :=
  match m.index domain backend with
  | .ok i => m.series.rows[i]?
  | .error _ => none

/-- A new series, if the pair has none. -/
def addSeries (m : Metrics F) (domain backend : String) : ℕ × Metrics F :=
  match h : m.series.find (Series.new ops domain backend).key with
  | .ok i => (i, m)
  | .error i => (i, { m with series := m.series.insertAt (Series.new ops domain backend) i h })

/-- `series_mut`: where the series of a pair is, or the one of the pairs beyond the bound. -/
def seriesMut (m : Metrics F) (domain backend : String) : ℕ × Metrics F :=
  match m.index domain backend with
  | .ok i => (i, m)
  | .error _ =>
    if m.maxSeries ≤ m.series.rows.length then
      addSeries ops { m with folded := (m.folded + 1) % 2 ^ 64 } overflowDomain ""
    else m.addSeries ops domain backend

/-- Counts a request. -/
def recordRequest (m : Metrics F) (domain backend : String) (code nanos : ℕ) : Metrics F :=
  let (i, m') := m.seriesMut ops domain backend
  { m' with
    series := m'.series.modifyAt i (fun s => (s.count code).sample ops (ops.secs nanos) m.maxSamples)
      (fun s => (Series.key_sample ops _ _ _).trans (Series.key_count s code)) }

/-- How many requests of a pair had a code. -/
def requestCount (m : Metrics F) (domain backend : String) (code : ℕ) : ℕ :=
  match m.seriesOf domain backend with
  | some s => ((s.codes.rows.find? fun p => p.1 = code).map Prod.snd).getD 0
  | none => 0

/-- All counts: domain, backend, code, and how many. -/
def requestCounts (m : Metrics F) : List (String × String × ℕ × ℕ) :=
  m.series.rows.flatMap fun s => s.codes.rows.map fun p => (s.domain, s.backend, p.1, p.2)

/-- Percentiles of one sorted copy; zeros without latencies. -/
def percentiles [LinearOrder F] (m : Metrics F) (domain backend : String) (ps : List F) :
    List F × Metrics F :=
  match m.index domain backend with
  | .error _ => (ps.map fun _ => ops.zero, m)
  | .ok i =>
    let m' := { m with series := m.series.modifyAt i (fun s => s.sortedCopy.2) Series.key_sortedCopy }
    match m.series.rows[i]? with
    | none => (ps.map fun _ => ops.zero, m)
    | some s =>
      let sorted := s.sortedCopy.1
      if sorted = [] then (ps.map fun _ => ops.zero, m')
      else (ps.map (atPercentile ops sorted), m')

end Metrics

/-! ### The text -/

/-- A character of a label value. -/
def escape (c : Char) : List Char :=
  if c = '\\' then ['\\', '\\']
  else if c = '"' then ['\\', '"']
  else if c = '\n' then ['\\', 'n']
  else [c]

/-- A label value in quotes. -/
def quote (s : String) : List Char := '"' :: (s.toList.flatMap escape ++ ['"'])

/-- A number. -/
def number (n : ℕ) : List Char := Nat.toDigits 10 n

/-- `DURATION_HEAD`. -/
def durationHead : List Char :=
  "# HELP hoplb_request_duration_seconds Request duration percentiles\n# TYPE hoplb_request_duration_seconds summary\n".toList

/-- The domain and the backend of a series, as labels. -/
def Series.labels {F : Type} (s : Series F) : List Char :=
  "\x7bdomain=".toList ++ quote s.domain ++ ",backend=".toList ++ quote s.backend

/-- `render_series`: the lines of one series. -/
def renderSeries {F : Type} [LinearOrder F] (ops : F64 F) (s : Series F) : List Char × Series F :=
  let count := s.samples.length
  if count = 0 then ([], s)
  else
    let (sorted, s') := s.sortedCopy
    let values := if sorted = [] then ops.quantiles.map fun _ => ops.zero
      else ops.quantiles.map (atPercentile ops sorted)
    (((ops.quantiles.zip values).flatMap fun (q, v) =>
        "hoplb_request_duration_seconds".toList ++ s.labels ++ ",quantile=\"".toList ++
          ops.fixed 2 q ++ "\"\x7d ".toList ++ ops.fixed 6 v ++ ['\n']) ++
      "hoplb_request_duration_seconds_count".toList ++ s.labels ++ "\x7d ".toList ++ number count ++
        ['\n'] ++
      "hoplb_request_duration_seconds_sum".toList ++ s.labels ++ "\x7d ".toList ++
        ops.fixed 6 s.sum ++ ['\n'], s')

theorem key_renderSeries {F : Type} [LinearOrder F] (ops : F64 F) (s : Series F) :
    (renderSeries ops s).2.key = s.key := by
  rw [renderSeries]
  dsimp only
  split_ifs
  · rfl
  · exact s.key_sortedCopy
  · exact s.key_sortedCopy

namespace Metrics

variable {F : Type} (ops : F64 F)

/-- `render_counts`. -/
def renderCounts (m : Metrics F) : List Char :=
  "# HELP hoplb_requests_total Total HTTP requests\n".toList ++
  "# TYPE hoplb_requests_total counter\n".toList ++
  (m.requestCounts.flatMap fun (d, b, code, n) =>
    "hoplb_requests_total\x7bdomain=".toList ++ quote d ++ ",backend=".toList ++ quote b ++
      ",code=\"".toList ++ number code ++ "\"\x7d ".toList ++ number n ++ ['\n']) ++ ['\n']

/-- What is said about the pairs beyond the bound. -/
def renderFolded (m : Metrics F) : List Char :=
  if 0 < m.folded then
    "\n# HELP hoplb_series_folded_total Series folded into domain \"".toList ++
      overflowDomain.toList ++ "\" (over ".toList ++ number m.maxSeries ++ " series)\n".toList ++
      "# TYPE hoplb_series_folded_total counter\nhoplb_series_folded_total ".toList ++
      number m.folded ++ ['\n']
  else []

/-- `render`: the text for Prometheus; the sorted copies are made anew where that is needed. -/
def render [LinearOrder F] (m : Metrics F) : List Char × Metrics F :=
  (m.renderCounts ++
    (m.series.rows.zipIdx.flatMap fun (s, i) =>
      (if i = 0 then durationHead else []) ++ (renderSeries ops s).1) ++
    (if m.series.rows = [] then durationHead else []) ++ m.renderFolded,
    { m with series := m.series.filterMap (fun s => some (renderSeries ops s).2) fun s _ h =>
        Option.some.inj h ▸ key_renderSeries ops s })

end Metrics

end Hop.Hoplb
