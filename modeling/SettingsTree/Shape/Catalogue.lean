import SettingsTree.Shape.Basic

/-!
# Ready-made shapes

Types that settings are commonly read as: lists and dictionaries of simple
values, the address of a service, an application with its database, a level of
detail, and a length.
-/
namespace SettingsTree.Shape

def optionalNumber : Shape := .option (.int .i32)

def texts : Shape := .list .text

def octets : Shape := .list (.int .u8)

def labelledNumber : Shape := .tuple [.int .i32, .text]

def numbersByName : Shape := .dictionary (.int .i64)

def endpoint : Shape :=
  .record false [.mk "host" .text .required, .mk "port" (.int .u16) .required]

/-- Like `endpoint`, but without further fields; the port is zero unless it is given. -/
def strictEndpoint : Shape :=
  .record true
    [.mk "host" .text .required,
     .mk "port" (.int .u16) (.fallback (.int ⟨.u16, 0, by decide⟩))]

/-- An application with its database and, possibly, tags. -/
def application : Shape :=
  .record false
    [.mk "name" .text .required,
     .mk "database" endpoint .required,
     .mk "tags" (.option texts) .absent]

/-- A level of detail: two with names only, the others with numbers. -/
def level : Shape :=
  .choice
    [.bare "Debug",
     .bare "Info",
     .holding "Custom" (.int .u8),
     .tuple "Pair" [.int .u8, .int .u8],
     .record "Range"
       [.mk "lo" (.int .u8) .required, .mk "hi" (.int .u8) .required]]

def meters : Shape := .named (.float .f64)

end SettingsTree.Shape
