import ModuleGraph.Family

namespace ModuleGraph

/-- What a module specifier refers to. -/
inductive Origin where
  | builtin
  | relative
  | package
  deriving DecidableEq, Repr

namespace Specifier

/-- Modules served without a scheme. Modules that need the `node:` scheme are left out, so that packages of
the same name stay packages. -/
def curlyBuiltins : List String := [
  "assert", "async_hooks", "buffer", "child_process", "cluster", "console", "constants",
  "crypto", "dgram", "diagnostics_channel", "dns", "domain", "events", "fs", "http", "http2",
  "https", "inspector", "module", "net", "os", "path", "perf_hooks", "process", "punycode",
  "querystring", "readline", "repl", "stream", "string_decoder", "sys", "timers",
  "tls", "trace_events", "tty", "url", "util", "v8", "vm", "wasi", "worker_threads", "zlib"]

def indentBuiltins : List String := [
  "__future__", "abc", "argparse", "array", "ast", "asyncio", "base64", "binascii", "bisect",
  "builtins", "bz2", "calendar", "cmath", "codecs", "collections", "concurrent",
  "configparser", "contextlib", "contextvars", "copy", "csv", "ctypes", "dataclasses",
  "datetime", "decimal", "difflib", "dis", "email", "enum", "errno", "faulthandler",
  "fnmatch", "fractions", "functools", "gc", "getpass", "gettext", "glob", "gzip",
  "hashlib", "heapq", "hmac", "html", "http", "importlib", "inspect", "io", "ipaddress",
  "itertools", "json", "keyword", "linecache", "locale", "logging", "lzma", "math",
  "mimetypes", "multiprocessing", "numbers", "operator", "os", "pathlib", "pickle",
  "pkgutil", "platform", "pprint", "queue", "random", "re", "secrets", "select", "shlex",
  "shutil", "signal", "socket", "sqlite3", "ssl", "stat", "statistics", "string",
  "struct", "subprocess", "sys", "sysconfig", "tarfile", "tempfile", "textwrap",
  "threading", "time", "timeit", "tokenize", "traceback", "types", "typing", "unicodedata",
  "unittest", "urllib", "uuid", "warnings", "weakref", "xml", "zipfile", "zlib", "zoneinfo"]

/-- Whether a specifier names a module of the language's own library: by its scheme, or by what stands
before its first separator. -/
def isBuiltin (family : Family) (spec : String) : Bool :=
  let s := spec.toList
  match family with
  | .curly =>
    Text.startsWith s "node:".toList || Text.startsWith s "bun:".toList
      || String.ofList (Text.upTo (· == '/') s) ∈ curlyBuiltins
  | .indent => String.ofList (Text.upTo (· == '.') s) ∈ indentBuiltins

/-- Whether a specifier is a path that starts at the importer (or at the root). -/
def isRelative (family : Family) (spec : String) : Bool :=
  let s := spec.toList
  match family with
  | .curly =>
    spec == "." || spec == ".." || Text.startsWith s "./".toList
      || Text.startsWith s "../".toList || Text.startsWith s "/".toList
  | .indent => Text.startsWith s ".".toList

/-- What a specifier refers to; builtins come before relative paths, and all else is a package. -/
def origin (family : Family) (spec : String) : Origin :=
  if isBuiltin family spec then .builtin
  else if isRelative family spec then .relative
  else .package

end Specifier

end ModuleGraph
