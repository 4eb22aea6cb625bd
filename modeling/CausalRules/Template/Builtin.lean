/-!
# The templates that are used when settings name none

Each template is a whole script but for the generated part, whose place is held by marker lines.
-/

namespace CausalRules.Template

/-- The lines of the script that explains a demonstration by intentions. -/
def facilityLines : List String := [
  "import sys",
  "sys.path.append('./copct-master')",
  "",
  "import copct",
  "from load_facility_demo import load_demo",
  "",
  "# # Background Causal Knowledge:",
  "# (move-to, obj, dest, dx, dy, dz, da) causes",
  "#     [(grasp, obj), (release, obj, dest, dx, dy, dz, da)]    ",
  "# (stack, dest, dx, dy, dz, da, obj1) causes",
  "#     [(move-to, obj1, dest, dx, dy, dz, da)]",
  "#     but only if obj1 is a block.",
  "# (stack, dest, dx, dy, dz, da, obj1, obj2, obj3, ...) causes",
  "#     [(move-to, obj1, dest, dx, dy, dz, da), (stack, obj1, 0, 0, .5, 0, obj2, obj3, ...)]",
  "#     but only if obj1 is a block.",
  "# (stack-all, dx, dy, dz, da) causes",
  "#     [(stack, 'room', dx, dy, dz, da, obj1, obj2, obj3, ...)]",
  "#     where obj1, obj2, obj3, ... are all the blocks in the room.",
  "",
  "def lookup_type(object_id, state):",
  "    return [obj_type for (obj_id,obj_type,_,_,_,_) in state if obj_id == object_id][0]",
  "",
  "def causes(v):",
  "    # v[i] = the i^th (state, action, arguments)",
  "    # returns g, a set of possible causes of v",
  "    states, actions, arguments = zip(*v)",
  "    g = set()",
  "",
  "    # INSERT CAUSES HERE",
  "",
  "    return g",
  "",
  "M = 0 # INSERT M HERE",
  "",
  "def main():",
  "    # Load demo",
  "    demo = load_demo(demo_directory='./SMILE-1.1.0/room_demo/')",
  "    ",
  "    # interpret demo (fixed-parameter-tractable when M is small and explicitly provided)",
  "    status, tlcovs, g = copct.explain(causes, demo, M=M)",
  "    print('copct status: %s'%status)",
  "    print('%d covers'%len(tlcovs))",
  "",
  "    # get most parsimonious covers",
  "    pcovs, length = copct.minCardinalityTLCovers(tlcovs)",
  "    print('%d covers of length %d'%(len(pcovs), length))",
  "    ",
  "    # Show the first one",
  "    print('First cover of length %d:'%length)",
  "    for intention in pcovs[0][0]:",
  "        print(intention[1:])",
  "",
  "if __name__=='__main__':",
  "    main()",
  ""]

/-- The lines of the script that replays intentions in a changed room. -/
def imitationLines : List String := [
  "import sys",
  "sys.path.extend(['./copct-master','./dananau-pyhop-195ab6320571'])",
  "",
  "from load_facility_demo import load_demo",
  "from facility_domain import causes, M",
  "import copct",
  "import pyhop",
  "import math",
  "",
  "# states: same hash-based representation as load_facility_demo:",
  "# state.objs[object_id] = [object_type, x, y, z, angle]",
  "def deep_copy(state):",
  "    new_state = pyhop.State(state.__name__)",
  "    new_state.objs = \x7bobj_id: list(state.objs[obj_id]) for obj_id in state.objs\x7d",
  "    return new_state",
  "def toXML(state, xml_file_path):",
  "    with open(xml_file_path,'w') as xml:",
  "        xml.write('<?xml version=\"1.0\" encoding=\"UTF-8\"?>\\n')",
  "        xml.write('<tabletop xmlns=\"http://synapse.cs.umd.edu/tabletop-xml\"" ++
    " xspan=\"20\" yspan=\"12\">\\n')",
  "        xml.write('<include file=\"tablesetup/def-room.xml\"/>\\n')",
  "        xml.write('<include file=\"tablesetup/def-forklift.xml\"/>\\n')",
  "        xml.write('<instance def=\"room\">\\n')",
  "        xml.write('<var name=\"rotation\" value=\"(0,0,%s)\"/>\\n'%state.objs['room'][4])",
  "        xml.write('</instance>\\n')",
  "        xml.write('<instance def=\"forklift\">\\n')",
  "        xml.write('<var name=\"rotation\" value=\"(0,0,%s)\"/>\\n'%state.objs['forklift'][4])",
  "        print(state.objs['forklift'][1:4])",
  "        xml.write('<var name=\"location\" value=\"(%s,%s,%s)\"/>\\n'" ++
    "%tuple(state.objs['forklift'][1:4]))",
  "        xml.write('</instance>\\n')",
  "        for obj in state.objs:",
  "            if state.objs[obj][0] == 'block':",
  "                xml.write('<block xspan=\".5\" yspan=\".5\" zspan=\".5\" id=\"%s\" '%obj)",
  "                xml.write('location=\"(%s,%s,%s)\" '%tuple(state.objs[obj][1:4]))",
  "                xml.write('rotation=\"(0,0,%s)\"/>\\n'%state.objs[obj][4])",
  "        xml.write('</tabletop>\\n')",
  "",
  "# primitive operators - these change the state of the environment",
  "def grasp(state, obj):",
  "    return deep_copy(state) # don't actually need to change anything",
  "def release(state, obj, dest, dx, dy, dz, da):",
  "    new_state = deep_copy(state)",
  "    # transform and position object relative to dest's frame of reference",
  "    dest_x, dest_y, dest_z, dest_angle = state.objs[dest][1:5]",
  "    radians = dest_angle*math.pi/180",
  "    rx = dx*math.cos(radians) - dy*math.sin(radians)",
  "    ry = dx*math.sin(radians) + dy*math.cos(radians)",
  "    new_state.objs[obj][1:] = [dest_x + rx, dest_y+ry, dest_z + dz, dest_angle + da]",
  "    return new_state",
  "ops = pyhop.declare_operators(grasp, release)",
  "",
  "# INSERT METHODS HERE",
  "",
  "",
  "def flatten(l):",
  "    out = []",
  "    for item in l:",
  "        if isinstance(item, (list,tuple)):",
  "            out.extend(flatten(item))",
  "        else:",
  "           out.append(item)",
  "    return out",
  "",
  "if __name__ == '__main__':",
  "",
  "    # Infer intentions from demo",
  "    demo = load_demo(demo_directory='./SMILE-1.1.0/room_demo/')",
  "    _, tlcovs, _ = copct.explain(causes, demo, M=M)",
  "    pcovs, _ = copct.minCardinalityTLCovers(tlcovs)",
  "",
  "    # reformat as pyhop tasks",
  "    tasks = [(u[1],) + u[2] for u in pcovs[0][0]]",
  "    ",
  "    # Make new state with room rotated and more crates",
  "    state = pyhop.State('')",
  "    state.objs = \x7b",
  "        'room': ['room', 0,0,.5, 270],",
  "        'forklift': ['forklift', 0,0,.25,0],",
  "        'crate1': ['block', 1.5, 1.5, .25, 0],",
  "        'crate2': ['block', -1.5, 1.5, .25, 0],",
  "        'crate3': ['block', 0.0, 1.5, .25, 0],",
  "        'crate4': ['block', -1.5, 0.0, .25, 0],",
  "    \x7d",
  "    ",
  "    # export to xml for smile viewing",
  "    toXML(state,'./SMILE-1.1.0/tablesetup/room2.xml')",
  "    ",
  "    # Plan new actions for the new situation",
  "    print(tasks)",
  "    new_actions = pyhop.pyhop(state, tasks,verbose=0)",
  "    ",
  "    print('New actions:')",
  "    for action in new_actions: print(action)",
  "    ",
  "    # Simulate new actions",
  "    for action in new_actions:",
  "        action_fun = ops[action[0]]",
  "        state = action_fun(state, *action[1:])",
  "",
  "    # Print and export final state after new actions are performed",
  "    print('Resulting state:')",
  "    for obj in state.objs:",
  "        print(obj, state.objs[obj])",
  "    toXML(state,'./SMILE-1.1.0/tablesetup/room2_final.xml')",
  ""]

/-- The built-in facility template. -/
def builtinFacility : String := "\n".intercalate facilityLines

/-- The built-in imitation template. -/
def builtinImitation : String := "\n".intercalate imitationLines

end CausalRules.Template
