import ClassDocs.Index.Basic

/-!
# Classes of the language

The classes and interfaces that are part of PHP itself. A project may declare a class of such a
name; then the name means the project's class.
-/

namespace ClassDocs.Index

/-- The names of the core classes in lower case. -/
def coreClasses : List String :=
  ["argumentcounterror", "arithmeticerror", "arrayaccess", "arrayiterator", "arrayobject",
    "attribute", "backedenum", "badfunctioncallexception", "badmethodcallexception", "closure",
    "countable", "dateinterval", "dateperiod", "datetime", "datetimeimmutable",
    "datetimeinterface", "datetimezone", "divisionbyzeroerror", "domainexception", "error",
    "errorexception", "exception", "generator", "invalidargumentexception", "iterator",
    "iteratoraggregate", "iteratoriterator", "jsonexception", "jsonserializable",
    "lengthexception", "logicexception", "outofboundsexception", "outofrangeexception",
    "outeriterator", "overflowexception", "pdo", "pdoexception", "pdostatement",
    "rangeexception", "recursiveiterator", "reflectionclass", "runtimeexception",
    "seekableiterator", "serializable", "spldoublylinkedlist", "splfileinfo", "splfileobject",
    "splfixedarray", "splheap", "splobjectstorage", "splpriorityqueue", "splqueue", "splstack",
    "stdclass", "stringable", "throwable", "traversable", "typeerror", "underflowexception",
    "unexpectedvalueexception", "unitenum", "valueerror", "weakmap", "weakreference"]

/-- Whether a name means a class of the language: a core class that the project does not
declare. -/
def isInternal (ix : Index) (className : String) : Bool :=
  coreClasses.contains (key className) && !ix.classes.contains (key className)

end ClassDocs.Index
