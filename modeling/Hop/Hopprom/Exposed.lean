import Hop.Hoplb.Exposed
import Hop.Hopprom.Exporter

/-!
# What is read from the exporter

The text of the exporter is read as its document (`exposed`), whatever the names are: each line is the
head or a sample of its metric. The proof goes along the writer, metric by metric; a metric that has
nothing to say is neither written nor shown.
-/

namespace Hop.Hopprom

open Hop.Exposition (Faithful Family Item Pointed Reads Sample escaped isValue)

/-- What a finite number is printed as. -/
structure F64.Prints {F : Type} (ops : F64 F) : Prop where
  pointed : ∀ prec v, 0 < prec → ops.isNan v = false → ops.isInfinite v = false →
    Pointed (ops.fixed prec v)

namespace Exporter

variable {F : Type}

/-! ### Escapes -/

theorem escapeAt_of_special {c : Char} (h : isSpecial c = true) :
    escapeAt (some c) = Exposition.escape c := by
  rw [isSpecial, Bool.or_eq_true, Bool.or_eq_true, decide_eq_true_iff, decide_eq_true_iff,
    decide_eq_true_iff] at h
  rcases h with (rfl | rfl) | rfl
  · rfl
  · rfl
  · rfl

theorem escaped_of_plain {v : List Char} (h : ∀ c ∈ v, isSpecial c = false) : escaped v = v := by
  induction v with
  | nil => rfl
  | cons c v ih =>
    have hc := h c List.mem_cons_self
    rw [isSpecial, Bool.or_eq_false_iff, Bool.or_eq_false_iff, decide_eq_false_iff_not,
      decide_eq_false_iff_not, decide_eq_false_iff_not] at hc
    have hone : Exposition.escape c = [c] := by
      rw [Exposition.escape, if_neg hc.1.1, if_neg hc.1.2, if_neg hc.2]
    rw [escaped, List.flatMap_cons, hone]
    exact congrArg (c :: ·) (ih fun d hd => h d (List.mem_cons_of_mem _ hd))

/-- **Escaping between what was found is escaping character by character.** -/
theorem escape_eq (v : List Char) : escape v = escaped v := by
  induction h : v.length using Nat.strongRecOn generalizing v with
  | ind n ih =>
    rw [escape]
    split
    · rename_i i hfind
      obtain ⟨hi, hspecial, hbefore⟩ := List.findIdx?_eq_some_iff_getElem.mp hfind
      have hplain : escaped (v.take i) = v.take i := by
        refine escaped_of_plain fun c hc => ?_
        obtain ⟨j, hj, rfl⟩ := List.getElem_of_mem hc
        rw [List.length_take] at hj
        rw [List.getElem_take]
        exact Bool.not_eq_true _ ▸ hbefore j (by omega)
      have hsplit : v = v.take i ++ v[i] :: v.drop (i + 1) := by
        rw [← List.drop_eq_getElem_cons hi, List.take_append_drop]
      have hrest := ih (v.drop (i + 1)).length (by rw [List.length_drop]; omega) _ rfl
      rw [List.getElem?_eq_getElem hi, escapeAt_of_special hspecial, hrest]
      conv_rhs => rw [hsplit]
      rw [escaped, escaped, List.flatMap_append, List.flatMap_cons, ← List.append_assoc]
      exact congrArg (fun t => t ++ _ ++ _) hplain.symm
    · rename_i hfind
      exact (escaped_of_plain (List.findIdx?_eq_none_iff.mp hfind)).symm

/-! ### One metric -/

theorem series_eq (name label value : String) (v : List Char) :
    series name label value ++ v ++ "\n".toList =
      Sample.text ⟨name.toList, [(label.toList, value.toList)], v, none⟩ ++ ['\n'] := by
  have hopen : "\x7b".toList = ['\x7b'] := rfl
  have hequal : "=\"".toList = ['=', '"'] := rfl
  have hclose : "\"\x7d ".toList = ['"', '\x7d', ' '] := rfl
  have hfeed : "\n".toList = ['\n'] := rfl
  rw [series, escape_eq, hopen, hequal, hclose, hfeed, Sample.text, Exposition.labelsText,
    Exposition.labelText]
  simp only [List.append_assoc, List.cons_append, List.nil_append, List.flatMap_nil]

/-- The words of a metric are what the format wants. -/
structure Words (name help kind label : String) : Prop where
  name : Exposition.isName name.toList = true
  help : Exposition.isHelp help.toList = true
  kind : Exposition.isKind kind.toList = true
  label : Exposition.isLabel label.toList = true

/-- The same for texts that are given by their characters, where it can be computed. -/
theorem Words.of_chars {name help kind label : String} {n h k l : List Char}
    (hn : name = String.ofList n) (hh : help = String.ofList h) (hk : kind = String.ofList k)
    (hl : label = String.ofList l) (hwords : (Exposition.isName n && Exposition.isHelp h &&
      Exposition.isKind k && Exposition.isLabel l) = true) : Words name help kind label := by
  rw [Bool.and_eq_true, Bool.and_eq_true, Bool.and_eq_true] at hwords
  exact ⟨Exposition.of_chars hn hwords.1.1.1, Exposition.of_chars hh hwords.1.1.2,
    Exposition.of_chars hk hwords.1.2, Exposition.of_chars hl hwords.2⟩

section

variable {name help kind label : String}

theorem reads_head (h : Words name help kind label) : Reads (head name help kind)
    [.help name.toList help.toList, .type name.toList kind.toList] := by
  have hread := Reads.head_text h.name h.help h.kind
  simp only [String.toList_append] at hread
  exact hread

theorem reads_metric {α : Type} (h : Words name help kind label)
    {xs : List (String × α)} {value : α → List Char} (hvalue : ∀ x ∈ xs, isValue (value x.2) = true) :
    Reads (metric name help kind label xs value) (labelled name help kind label xs value).items := by
  have hrows : Reads (rows name label xs value)
      ((labelled name help kind label xs value).samples.map .sample) := by
    refine .samples xs (fun x _ => series_eq name label x.1 (value x.2)) fun x hx => ?_
    refine ⟨h.name, fun l hl => ?_, hvalue x hx, rfl⟩
    rw [List.mem_singleton.mp hl]
    exact h.label
  have hall := ((reads_head h).append hrows).append .blank
  rwa [List.append_nil] at hall

theorem reads_single {value : List Char} (h : Words name help kind label)
    (hvalue : isValue value = true) : Reads (single name help kind value)
      (plain name help kind value).items := by
  have hsample := Reads.sample (s := ⟨name.toList, [], value, none⟩)
    ⟨h.name, fun _ hl => (List.not_mem_nil hl).elim, hvalue, rfl⟩
  have hall := ((reads_head h).append hsample).append .blank
  have hblank : " ".toList = [' '] := rfl
  have hfeeds : "\n\n".toList = ['\n', '\n'] := rfl
  rw [single, hblank, hfeeds]
  rw [List.append_nil, Sample.text, Exposition.labelsText] at hall
  simp only [List.append_assoc, List.cons_append, List.nil_append] at hall ⊢
  exact hall

end

/-! ### The whole text -/

/-- A text says what is shown of these metrics. -/
def Says (text : List Char) (fs : List Family) : Prop :=
  Reads text ((fs.filter shown).flatMap Family.items)

namespace Says

variable {text text' : List Char} {f g : List Family} {name help kind label : String}

theorem append (h : Says text f) (h' : Says text' g) : Says (text ++ text') (f ++ g) := by
  rw [Says, List.filter_append, List.flatMap_append]
  exact Reads.append h h'

theorem of_shown {f : Family} (hreads : Reads text f.items) (hshown : shown f = true) :
    Says text [f] := by
  rw [Says, List.filter_cons_of_pos hshown, List.filter_nil, List.flatMap_cons, List.flatMap_nil,
    List.append_nil]
  exact hreads

theorem single {value : List Char} (h : Words name help kind "label")
    (hvalue : isValue value = true) :
    Says (Exporter.single name help kind value) [plain name help kind value] :=
  of_shown (reads_single h hvalue) rfl

/-- A metric that is there if it has a sample. -/
theorem metric {α : Type} {xs : List (String × α)} {value : α → List Char}
    (h : Words name help kind label)
    (hname : name ≠ "hop_tasks_total")
    (hvalue : ∀ x ∈ xs, isValue (value x.2) = true) :
    Says (if xs = [] then [] else Exporter.metric name help kind label xs value)
      [labelled name help kind label xs value] := by
  by_cases hxs : xs = []
  · subst hxs
    have hshown : ¬ shown (labelled name help kind label [] value) = true := by
      rw [shown, Bool.or_eq_true, not_or]
      refine ⟨Bool.false_ne_true, fun heq => hname ?_⟩
      exact String.toList_injective (of_decide_eq_true heq)
    rw [if_pos rfl, Says, List.filter_cons_of_neg hshown]
    exact .nil
  · have hshown : shown (labelled name help kind label xs value) = true := by
      rw [shown, Bool.or_eq_true, Bool.not_eq_true', List.isEmpty_eq_false_iff]
      exact .inl fun hnil => hxs (List.map_eq_nil_iff.mp hnil)
    rw [if_neg hxs]
    exact of_shown (reads_metric h hvalue) hshown

end Says

theorem ite_append {c : Prop} [Decidable c] (s t : List Char) :
    (if c then [] else s ++ t) = (if c then [] else s) ++ if c then [] else t := by
  split_ifs
  · rfl
  · rfl

theorem isValue_float {ops : F64 F} (hops : ops.Prints) (v : F) {prec : ℕ} (hprec : 0 < prec) :
    isValue (float ops v prec) = true := by
  rw [float]
  split_ifs with hnan hinf hpos
  · decide
  · decide
  · decide
  · rw [Bool.not_eq_true] at hnan hinf
    exact Exposition.isValue_pointed (hops.pointed prec v hprec hnan hinf)

theorem isValue_number (n : ℕ) : isValue (number n) = true := Exposition.isValue_toDigits n

theorem isValue_flag (b : Bool) : isValue (flag b) = true := isValue_number b.toNat

section

variable {ops : F64 F} (hops : ops.Prints) (m : Metrics F) (now : Option Nanos)

include hops in
theorem says_agents : Says (agents ops m) (agentFamilies ops m) := by
  rw [agents, ite_append, ite_append, ite_append]
  simp only [← List.append_assoc]
  refine .append (g := [_]) (.append (g := [_]) (.append (g := [_]) (.append (g := [_])
    (.append (g := [_]) (.append (f := [_]) (g := [_]) ?_ ?_) ?_) ?_) ?_) ?_) ?_
  · exact .single (.of_chars rfl rfl rfl rfl (by decide)) (isValue_number _)
  · exact .single (.of_chars rfl rfl rfl rfl (by decide)) (isValue_number _)
  · exact .metric (.of_chars rfl rfl rfl rfl (by decide)) (by decide)
      fun _ _ => isValue_number _
  · exact .metric (.of_chars rfl rfl rfl rfl (by decide)) (by decide)
      fun _ _ => isValue_float hops _ (by decide)
  · exact .metric (.of_chars rfl rfl rfl rfl (by decide)) (by decide)
      fun _ _ => isValue_number _
  · exact .metric (.of_chars rfl rfl rfl rfl (by decide)) (by decide)
      fun _ _ => isValue_number _
  · exact .metric (.of_chars rfl rfl rfl rfl (by decide)) (by decide)
      fun _ _ => isValue_float hops _ (by decide)

theorem says_tasks : Says (tasks m) (taskFamilies m) := by
  rw [tasks, gaugeMap, gaugeMap]
  refine .append (g := [_]) (.append (f := [_]) (g := [_]) ?_ ?_) ?_
  -- the one metric that is shown without a sample
  · refine .of_shown (reads_metric (.of_chars rfl rfl rfl rfl (by decide))
      fun _ _ => isValue_number _) ?_
    rw [shown, Bool.or_eq_true]
    exact .inr (decide_eq_true rfl)
  · exact .metric (.of_chars rfl rfl rfl rfl (by decide)) (by decide)
      fun _ _ => isValue_number _
  · exact .metric (.of_chars rfl rfl rfl rfl (by decide)) (by decide)
      fun _ _ => isValue_number _

include hops in
theorem says_jobs : Says (jobs ops m) (jobFamilies ops m) := by
  rw [jobs, ite_append, ite_append, ite_append, ite_append]
  simp only [← List.append_assoc]
  refine .append (g := [_]) (.append (g := [_]) (.append (g := [_]) (.append (g := [_])
    (.append (f := [_]) (g := [_]) ?_ ?_) ?_) ?_) ?_) ?_
  · exact .single (.of_chars rfl rfl rfl rfl (by decide)) (isValue_number _)
  · exact .metric (.of_chars rfl rfl rfl rfl (by decide)) (by decide)
      fun _ _ => isValue_number _
  · exact .metric (.of_chars rfl rfl rfl rfl (by decide)) (by decide)
      fun _ _ => isValue_number _
  · exact .metric (.of_chars rfl rfl rfl rfl (by decide)) (by decide)
      fun _ _ => isValue_flag _
  · exact .metric (.of_chars rfl rfl rfl rfl (by decide)) (by decide)
      fun _ _ => isValue_float hops _ (by decide)
  · exact .metric (.of_chars rfl rfl rfl rfl (by decide)) (by decide)
      fun _ _ => isValue_float hops _ (by decide)

include hops in
theorem says_leader : Says (leader ops m now) (leaderFamilies ops m now) := by
  have hdeploying : (if m.deploying = [] then [] else
      Exporter.metric "hop_job_deploying" "1 for each job whose last rollout did not finish" "gauge"
        "job" (m.deploying.map fun job => (job, ())) (fun _ => "1".toList)) =
      if (m.deploying.map fun job => (job, ())) = [] then [] else
        Exporter.metric "hop_job_deploying" "1 for each job whose last rollout did not finish" "gauge"
          "job" (m.deploying.map fun job => (job, ())) (fun _ => "1".toList) := by
    by_cases hnil : m.deploying = []
    · rw [if_pos hnil, if_pos (List.map_eq_nil_iff.mpr hnil)]
    · rw [if_neg hnil, if_neg fun h => hnil (List.map_eq_nil_iff.mp h)]
  rw [leader, hdeploying]
  refine .append (g := [_]) (.append (g := [_]) (.append (g := [_]) (.append (g := [_])
    (.append (f := [_]) (g := [_]) ?_ ?_) ?_) ?_) ?_) ?_
  · exact .of_shown (reads_metric (.of_chars rfl rfl rfl rfl (by decide))
      fun _ _ => isValue_flag _) rfl
  · exact .single (.of_chars rfl rfl rfl rfl (by decide)) (isValue_float hops _ (by decide))
  · exact .single (.of_chars rfl rfl rfl rfl (by decide)) (isValue_number _)
  · exact .single (.of_chars rfl rfl rfl rfl (by decide)) (isValue_flag _)
  · exact .single (.of_chars rfl rfl rfl rfl (by decide)) (isValue_number _)
  · exact .metric (.of_chars rfl rfl rfl rfl (by decide)) (by decide)
      fun _ _ => by decide

include hops in
/-- **The text is read as the document.** -/
theorem says_render : Says (render ops m now) (families ops m now) := by
  rw [render, counter, counter, counter, families]
  refine .append ?_ (says_leader hops m now)
  rw [List.append_assoc, List.append_assoc (agents ops m ++ tasks m ++ jobs ops m)]
  refine .append (.append (.append (says_agents hops m) (says_tasks m)) (says_jobs hops m)) ?_
  rw [← List.append_assoc]
  refine .append (g := [_]) (.append (f := [_]) (g := [_]) ?_ ?_) ?_
  · exact .metric (.of_chars rfl rfl rfl rfl (by decide)) (by decide)
      fun _ _ => isValue_number _
  · exact .metric (.of_chars rfl rfl rfl rfl (by decide)) (by decide)
      fun _ _ => isValue_number _
  · exact .metric (.of_chars rfl rfl rfl rfl (by decide)) (by decide)
      fun _ _ => isValue_number _

end

/-! ### No sample twice -/

/-- The samples of a metric have its name, and different labels. -/
structure Regular (f : Family) : Prop where
  named : ∀ s ∈ f.samples, s.name = f.name
  unique : (f.samples.map Sample.key).Nodup

theorem regular_plain (name help kind : String) (value : List Char) :
    Regular (plain name help kind value) where
  named s hs := by
    rw [List.mem_singleton.mp hs]
    rfl
  unique := List.nodup_singleton _

theorem regular_labelled {α : Type} (name help kind label : String) {xs : List (String × α)}
    (value : α → List Char) (h : (xs.map Prod.fst).Nodup) :
    Regular (labelled name help kind label xs value) where
  named s hs := by
    obtain ⟨x, -, rfl⟩ := List.mem_map.mp hs
    rfl
  unique := by
    rw [labelled, List.map_map]
    refine List.pairwise_map.mpr ((List.pairwise_map.mp h).imp fun {x y} hxy heq => hxy ?_)
    have hlabels := congrArg Prod.snd heq
    exact String.toList_injective (congrArg Prod.snd (List.cons.inj hlabels).1)

theorem caps_nodup (m : Metrics F) : ((caps m).map Prod.fst).Nodup := by
  have hsub : ∀ es : List (String × AgentMetric), ((es.filterMap fun a =>
      a.2.capacity.map fun c => (a.1, c)).map Prod.fst).Sublist (es.map Prod.fst) := by
    intro es
    induction es with
    | nil => exact .slnil
    | cons a es ih =>
      rw [List.filterMap_cons]
      rcases a.2.capacity with - | c
      · exact ih.cons a.1
      · exact ih.cons_cons a.1
  exact m.agents.keys_nodup.sublist (hsub m.agents.entries)

theorem temps_nodup (m : Metrics F) : ((temps m).map Prod.fst).Nodup :=
  m.agents.keys_nodup.sublist (List.filter_sublist.map Prod.fst)

theorem families_regular (ops : F64 F) (m : Metrics F) (now : Option Nanos)
    (hdeploying : m.deploying.Nodup) : ∀ f ∈ families ops m now, Regular f := by
  have hjobs : ((m.deploying.map fun job => (job, ())).map Prod.fst).Nodup := by
    rw [List.map_map]
    exact (List.map_id m.deploying).symm ▸ hdeploying
  simp only [families, agentFamilies, taskFamilies, jobFamilies, counterFamilies, leaderFamilies,
    List.cons_append, List.nil_append, List.forall_mem_cons]
  exact ⟨regular_plain .., regular_plain .., regular_labelled _ _ _ _ _ (caps_nodup m),
    regular_labelled _ _ _ _ _ (caps_nodup m), regular_labelled _ _ _ _ _ (caps_nodup m),
    regular_labelled _ _ _ _ _ (caps_nodup m), regular_labelled _ _ _ _ _ (temps_nodup m),
    regular_labelled _ _ _ _ _ m.tasksByState.keys_nodup,
    regular_labelled _ _ _ _ _ m.tasksPlaced.keys_nodup,
    regular_labelled _ _ _ _ _ m.taskRestarts.keys_nodup, regular_plain ..,
    regular_labelled _ _ _ _ _ m.jobs.keys_nodup, regular_labelled _ _ _ _ _ m.jobs.keys_nodup,
    regular_labelled _ _ _ _ _ m.jobs.keys_nodup, regular_labelled _ _ _ _ _ m.jobs.keys_nodup,
    regular_labelled _ _ _ _ _ m.jobs.keys_nodup, regular_labelled _ _ _ _ _ m.startsTotal.keys_nodup,
    regular_labelled _ _ _ _ _ m.failuresTotal.keys_nodup,
    regular_labelled _ _ _ _ _ m.restartsTotal.keys_nodup,
    regular_labelled _ _ _ _ _ (List.nodup_singleton _), regular_plain .., regular_plain ..,
    regular_plain .., regular_plain .., regular_labelled _ _ _ _ _ hjobs, nofun⟩

/-- The names of all metrics. -/
def allNames : List String :=
  ["hop_agents_total", "hop_agents_healthy", "hop_agent_cpu_cores", "hop_agent_cpu_used_cores",
    "hop_agent_memory_bytes", "hop_agent_memory_used_bytes", "hop_agent_temperature_celsius",
    "hop_tasks_total", "hop_tasks_placed", "hop_task_restarts", "hop_jobs_total",
    "hop_job_instances_placed", "hop_job_instances_expected", "hop_job_healthy",
    "hop_job_cpu_percent", "hop_job_mem_percent", "hop_task_starts_total", "hop_task_failures_total",
    "hop_task_restarts_total", "hop_leader_info", "hop_leader_lease_seconds",
    "hop_leader_changes_total", "hop_cluster_settling", "hop_jobs_deploying", "hop_job_deploying"]

theorem names_labelled {α : Type} {name help kind label : String} {xs : List (String × α)}
    {value : α → List Char} (h : kind ≠ "summary") :
    (labelled name help kind label xs value).names = [name.toList] :=
  if_neg fun heq => h (String.toList_injective heq)

theorem names_plain {name help kind : String} {value : List Char} (h : kind ≠ "summary") :
    (plain name help kind value).names = [name.toList] :=
  if_neg fun heq => h (String.toList_injective heq)

theorem names_families (ops : F64 F) (m : Metrics F) (now : Option Nanos) :
    (families ops m now).flatMap Family.names = allNames.map String.toList := by
  have hgauge : "gauge" ≠ "summary" := by decide
  have hcounter : "counter" ≠ "summary" := by decide
  simp only [families, agentFamilies, taskFamilies, jobFamilies, counterFamilies, leaderFamilies,
    List.cons_append, List.nil_append, List.flatMap_cons, List.flatMap_nil, names_plain hgauge,
    names_plain hcounter, names_labelled hgauge, names_labelled hcounter, allNames, List.map_cons,
    List.map_nil]

/-- **The text of the exporter is read as its document**, and no sample of it stands twice. -/
theorem exposed {ops : F64 F} (hops : ops.Prints) (m : Metrics F) (now : Option Nanos)
    (hdeploying : m.deploying.Nodup) : Faithful (render ops m now) (document ops m now) := by
  have hregular : ∀ f ∈ document ops m now, Regular f := fun f hf =>
    families_regular ops m now hdeploying f (List.mem_of_mem_filter hf)
  refine .of_reads (says_render hops m now) (fun f hf s hs => ?_) ?_ fun f hf => (hregular f hf).unique
  · rw [(hregular f hf).named s hs]
    exact Exposition.name_mem_names f
  · have hall : ((families ops m now).flatMap Family.names).Nodup := by
      rw [names_families]
      exact (by decide : allNames.Nodup).map fun _ _ => String.toList_injective
    exact hall.sublist (List.filter_sublist.flatMap _)

end Exporter

/-- **No name forges a metric.** Whatever the domains, backends, agents, jobs and the leader are
called: the texts of the load balancer and of the exporter are read as the samples of their metrics,
with those names and labels, each under the head of its own family and none of them twice. -/
theorem not_forged {F G : Type} [LinearOrder F] {lb : Hoplb.F64 F} (hlb : lb.Prints) {ops : F64 G}
    (hops : ops.Prints) :
    (∀ m : Hoplb.Metrics F, Faithful (m.render lb).1 (Hoplb.Metrics.document lb m)) ∧
    ∀ (m : Metrics G) (now : Option Nanos), m.deploying.Nodup →
      Faithful (Exporter.render ops m now) (Exporter.document ops m now) :=
  ⟨Hoplb.Metrics.exposed hlb, Exporter.exposed hops⟩

/-- A number of millionths. -/
def fixedMillionths (prec n : ℕ) : List Char :=
  let rest := Nat.toDigits 10 (n % 10 ^ 6)
  Nat.toDigits 10 (n / 10 ^ 6) ++ '.' :: (List.replicate (6 - rest.length) '0' ++ rest).take prec

theorem pointed_fixedMillionths {prec : ℕ} (h : 0 < prec) (n : ℕ) :
    Pointed (fixedMillionths prec n) := by
  refine ⟨[], _, _, .inl rfl, Exposition.isDigits_toDigits _, ?_, rfl⟩
  have hdigits := Exposition.isDigits_toDigits (n % 10 ^ 6)
  rw [Exposition.isDigits, Bool.and_eq_true, decide_eq_true_iff, List.all_eq_true]
  refine ⟨fun hnil => ?_, fun c hc => ?_⟩
  · rcases List.take_eq_nil_iff.mp hnil with hzero | hnil
    · exact h.ne' hzero
    · exact Exposition.ne_nil_of_isDigits hdigits (List.append_eq_nil_iff.mp hnil).2
  · rcases List.mem_append.mp (List.mem_of_mem_take hc) with hc | hc
    · rw [List.eq_of_mem_replicate hc]
      decide
    · exact Exposition.isDigit_of_mem hdigits c hc

/-- Seconds in millionths, for the load balancer. -/
def millionthsLb : Hoplb.F64 ℕ where
  zero := 0
  add := (· + ·)
  secs nanos := nanos / 1000
  index n p := n * p / 10 ^ 6
  quantiles := [500000, 900000, 950000, 990000]
  fixed := fixedMillionths

/-- The same for the exporter. -/
def millionths : F64 ℕ where
  zero := 0
  add := (· + ·)
  per sum n := sum / n
  ratio a b := (a * 10 ^ 6 / b).toNat
  isNan _ := false
  isInfinite _ := false
  positive _ := true
  fixed := fixedMillionths

theorem millionthsLb_prints : millionthsLb.Prints where
  value _ n h := .inl (pointed_fixedMillionths h n)
  quantiles := by decide

theorem millionths_prints : millionths.Prints where
  pointed _ n h _ _ := pointed_fixedMillionths h n

/-- A name that ends its quotes, its line and its metric. -/
def forger : String := "a\"\x7d 1\n# TYPE hop_leader_info counter\nhop_leader_info\x7bleader=\"b\\"

/-- A request for that domain. -/
def forgedLb : Hoplb.Metrics ℕ :=
  (Hoplb.Metrics.withLimits 8 8).recordRequest millionthsLb forger "" 200 1000000

/-- A leader and a job of that name. -/
def forged : Metrics ℕ where
  agentsTotal := 0
  agentsHealthy := 0
  agents := .empty
  tasksByState := .empty
  tasksPlaced := .empty
  taskRestarts := .empty
  jobsTotal := 0
  jobs := .empty
  startsTotal := .empty
  failuresTotal := .empty
  restartsTotal := .empty
  leader := forger
  leaseExpiresAt := 0
  leaderChanges := 0
  settling := false
  deploying := [forger]

theorem not_forged_forger :
    Faithful (forgedLb.render millionthsLb).1 (Hoplb.Metrics.document millionthsLb forgedLb) ∧
    Faithful (Exporter.render millionths forged none) (Exporter.document millionths forged none) :=
  ⟨(not_forged millionthsLb_prints millionths_prints).1 forgedLb,
    (not_forged millionthsLb_prints millionths_prints).2 forged none (List.nodup_singleton _)⟩

end Hop.Hopprom
