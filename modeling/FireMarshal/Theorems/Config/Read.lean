import FireMarshal.Config.Load

/-! What is read from a file: the configuration, and its jobs. -/

namespace FireMarshal

variable {ω : Type} {env : LoadEnv ω} {m : Marshal ω}

theorem init_of_readDict {dict : ConfigDict ω} {node : ConfigNode ω} (h : env.readDict m dict = .ok node) :
    Config.init env.toInitEnv dict.raw none [] = .ok node.cfg := by
  obtain ⟨distro, -, h⟩ := Except.bind_ok h
  obtain ⟨cfg, hcfg, h⟩ := Except.bind_ok h
  cases h
  exact hcfg

theorem name_of_init {raw : RawConfig} {c : Config} (h : Config.init env.toInitEnv raw none [] = .ok c) :
    c.name = raw.name := by
  obtain ⟨workdir, imgSz, mem, cpus, -, -, -, -, rfl⟩ := Config.init_eq_ok h
  rfl

def jobName (main job : String) : String := main ++ "-" ++ job

structure LoadEnv.IsJob (env : LoadEnv ω) (path : FilePath) (main : Config) (job : ConfigDict ω)
    (e : String × ConfigNode ω) : Prop where
  key : e.1 = e.2.cfg.name
  init : Config.init env.toInitEnv (LoadEnv.jobDict path main job).raw none [] = .ok e.2.cfg

theorem LoadEnv.IsJob.name {path : FilePath} {main : Config} {job : ConfigDict ω} {e : String × ConfigNode ω}
    (h : env.IsJob path main job e) : e.2.cfg.name = jobName main.name job.raw.name := name_of_init h.init

theorem readJobs_run {path : FilePath} {main : Config} {js : List (ConfigDict ω)} {d out : Dict String (ConfigNode ω)}
    (h : js.foldlM (fun jobs job => env.readDict m (LoadEnv.jobDict path main job) >>= fun node =>
      .ok (Dict.merge jobs [(node.cfg.name, node)])) d = .ok out) :
    (∀ e ∈ out, e ∈ d ∨ ∃ job ∈ js, env.IsJob path main job e) ∧
      ((d.keys ++ js.map fun job => jobName main.name job.raw.name).Nodup →
        out.keys = d.keys ++ js.map fun job => jobName main.name job.raw.name) := by
  induction js generalizing d with
  | nil =>
    cases h
    exact ⟨fun e he => .inl he, fun _ => by simp⟩
  | cons job js ih =>
    obtain ⟨u, hu, h⟩ := Except.foldlM_cons_ok h
    obtain ⟨node, hnode, hu⟩ := Except.bind_ok hu
    obtain rfl := Except.ok.inj hu
    have hjob : env.IsJob path main job (node.cfg.name, node) := ⟨rfl, init_of_readDict hnode⟩
    obtain ⟨hmem, hkeys⟩ := ih h
    refine ⟨fun e he => ?_, fun hnodup => ?_⟩
    · rcases hmem e he with hd | ⟨job', hjob', hisJob⟩
      · rcases Dict.mem_merge_singleton hd with hd | rfl
        · exact .inl hd
        · exact .inr ⟨job, List.mem_cons_self, hjob⟩
      · exact .inr ⟨job', List.mem_cons_of_mem _ hjob', hisJob⟩
    · rw [List.map_cons] at hnodup
      have hname : node.cfg.name = jobName main.name job.raw.name := hjob.name
      have hnew : node.cfg.name ∉ d.keys := by
        rw [hname]
        exact fun hmem => (List.nodup_append.mp hnodup).2.2 _ hmem _ List.mem_cons_self rfl
      rw [Dict.merge_new hnew, Dict.keys_append, hname, List.append_assoc] at hkeys
      exact hkeys hnodup

structure LoadEnv.Reads (env : LoadEnv ω) (path : FilePath) (file : ConfigFile ω) (c : Parsed ω) : Prop where
  load : env.load path = .ok file
  main : Config.init env.toInitEnv { file.main.raw with cfgFile := some path } none [] = .ok c.main.cfg
  jobs : ∀ e ∈ c.jobs, ∃ job ∈ file.jobs, env.IsJob path c.main.cfg job e
  keys : (file.jobs.map fun job => jobName c.main.cfg.name job.raw.name).Nodup →
    c.jobs.keys = file.jobs.map fun job => jobName c.main.cfg.name job.raw.name

theorem reads_of_readConfig {path : FilePath} {c : Parsed ω} (h : env.readConfig m path = .ok c) :
    ∃ file, env.Reads path file c := by
  obtain ⟨file, hfile, h⟩ := Except.bind_ok h
  obtain ⟨main, hmain, h⟩ := Except.bind_ok h
  obtain ⟨jobs, hjobs, h⟩ := Except.bind_ok h
  cases h
  obtain ⟨hmem, hkeys⟩ := readJobs_run hjobs
  refine ⟨file, hfile, init_of_readDict hmain, fun e he => (hmem e he).resolve_left (by simp), fun hnodup => ?_⟩
  simpa [Dict.keys] using hkeys (by simpa [Dict.keys] using hnodup)

theorem LoadEnv.Reads.name {path : FilePath} {file : ConfigFile ω} {c : Parsed ω} (h : env.Reads path file c) :
    c.main.cfg.name = file.main.raw.name := by
  have hname := name_of_init h.main
  exact hname

end FireMarshal
