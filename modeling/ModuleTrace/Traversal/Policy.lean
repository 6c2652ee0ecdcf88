import ModuleTrace.Specifier

/-!
# External modules

A module from elsewhere is supported when it ships with the runtime, or when it or its package
is on a list.
-/

namespace ModuleTrace.Policy

/-- Modules that ship with the runtime. -/
def builtins : List String :=
  ["assert", "assert/strict", "async_hooks", "buffer", "child_process", "cluster", "console",
   "constants", "crypto", "dgram", "diagnostics_channel", "dns", "domain", "events", "fs", "http",
   "http2", "https", "inspector", "module", "net", "os", "path", "perf_hooks", "process",
   "punycode", "querystring", "readline", "repl", "stream", "string_decoder", "sys", "test",
   "timers", "tls", "trace_events", "tty", "url", "util", "v8", "vm", "wasi", "worker_threads",
   "zlib"]

def supports (listed : List String) (specifier : String) : Bool :=
  let name := Specifier.packageName specifier
  builtins.contains name || listed.contains name || listed.contains specifier

/-- Specifiers that are not supported, each once, in the order of their first occurrence. -/
def unsupported (listed : List String) (specifiers : List String) : List String :=
  (specifiers.filter fun specifier => !supports listed specifier).eraseDups

end ModuleTrace.Policy
